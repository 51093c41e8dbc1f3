import BlockLang.Syntax.Basic

/-!
# Building trees

Short forms for trees that come from no source: everything has the empty span.
-/

namespace BlockLang

/-- A part of a tree that comes from no source. -/
def Located.bare {α : Type} (value : α) : Located α := { value }

namespace Params

/-- Parameters are added in front to back order with the functions below. -/
def require (p : Params) (name : String) : Params :=
  { p with pre := p.pre ++ [.bare (.required name)] }

def destructure (p : Params) (targets : Targets) : Params :=
  { p with pre := p.pre ++ [.bare (.destructure targets)] }

def withOptional (p : Params) (name : String) (default : Located Expr) : Params :=
  { p with optional := p.optional ++ [.bare ⟨name, default⟩] }

/-- A rest parameter takes the place of the one before; without a name it is `*`. -/
def withRest (p : Params) (name : Option String) : Params :=
  { p with rest := some (.bare { name }) }

def requireAfter (p : Params) (name : String) : Params :=
  { p with post := p.post ++ [.bare (.required name)] }

def withKeyword (p : Params) (name : String) (default : Option (Located Expr)) : Params :=
  { p with keywords := p.keywords ++ [.bare ⟨name, default⟩] }

def withKeywordRest (p : Params) (name : String) : Params :=
  { p with keywordRest := some (.bare { name := some name }) }

def withBlock (p : Params) (name : String) : Params :=
  { p with block := some (.bare name) }

def withBlockLocal (p : Params) (name : String) : Params :=
  { p with blockLocals := p.blockLocals ++ [.bare name] }

end Params

namespace Build

def nil : Located Expr := .bare .nil

def bool (b : Bool) : Located Expr := .bare (.bool b)

def integer (i : Int64) : Located Expr := .bare (.integer i)

def text (t : String) : Located Expr := .bare (.text t)

def symbol (name : String) : Located Expr := .bare (.symbol name)

def array (items : List (Located Expr)) : Located Expr := .bare (.array items)

def hash (pairs : List (Located Expr × Located Expr)) : Located Expr := .bare (.hash pairs)

/-- A hash with symbols for keys, as keyword arguments are passed. -/
def keywords (pairs : List (String × Located Expr)) : Located Expr :=
  hash (pairs.map fun (name, value) => (symbol name, value))

def splat (inner : Located Expr) : Located Expr := .bare (.splat inner)

def self : Located Expr := .bare .self

def localVar (name : String) : Located Expr := .bare (.localVar name)

def bareName (name : String) : Located Expr := .bare (.bareName name)

def instanceVar (name : String) : Located Expr := .bare (.instanceVar name)

def globalVar (name : String) : Located Expr := .bare (.globalVar name)

def constant (name : String) : Located Expr := .bare (.constant name)

def localTarget (name : String) : Located Target := .bare (.localVar name)

def assignTo (target : Located Target) (value : Located Expr) : Located Expr :=
  .bare (.assign target value)

/-- Assigns a local variable. -/
def assign (name : String) (value : Located Expr) : Located Expr :=
  assignTo (localTarget name) value

def multiAssign (targets : Targets) (value : Located Expr) : Located Expr :=
  .bare (.multiAssign targets (some value))

def call (receiver : Located Expr) (method : String) (args : List (Located Expr)) : Located Expr :=
  .bare (.call (some receiver) method args none)

/-- A call on self. -/
def selfCall (method : String) (args : List (Located Expr)) : Located Expr :=
  .bare (.call none method args none)

def block (params : Params) (body : List (Located Expr)) : Located BlockLiteral :=
  .bare ⟨params, body⟩

def callWithBlock (receiver : Option (Located Expr)) (method : String)
    (args : List (Located Expr)) (block : Located BlockLiteral) : Located Expr :=
  .bare (.call receiver method args (some (.literal block)))

def lambda (params : Params) (body : List (Located Expr)) : Located Expr :=
  .bare (.lambda (block params body))

def define (name : String) (params : Params) (body : List (Located Expr)) : Located Expr :=
  .bare (.define (.bare name) params body)

def classDef (name : String) (superclass : Option (Located Expr)) (body : List (Located Expr)) :
    Located Expr :=
  .bare (.classDef name superclass body)

def bareSuper : Located Expr := .bare (.bareSuper none)

def super (args : List (Located Expr)) : Located Expr := .bare (.super args none)

def yield (args : List (Located Expr)) : Located Expr := .bare (.yield args)

def ifElse (condition : Located Expr) (thenBranch elseBranch : List (Located Expr)) :
    Located Expr :=
  .bare (.ifElse condition thenBranch elseBranch)

def whileLoop (condition : Located Expr) (body : List (Located Expr)) : Located Expr :=
  .bare (.loop condition body false false)

def forEach (target : Located Target) (iterable : Located Expr) (body : List (Located Expr)) :
    Located Expr :=
  .bare (.forEach target iterable body)

def breakWith (value : Option (Located Expr)) : Located Expr := .bare (.breakWith value)

def nextWith (value : Option (Located Expr)) : Located Expr := .bare (.nextWith value)

def returnWith (value : Option (Located Expr)) : Located Expr := .bare (.returnWith value)

def sequence (body : List (Located Expr)) : Located Expr := .bare (.sequence body)

end Build

end BlockLang
