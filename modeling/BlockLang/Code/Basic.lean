import BlockLang.Arity
import BlockLang.Code.Reference

/-!
# Lowered code

What the machine runs. Variables are references, parameters are bound by explicit reads of the
arguments, and bodies of closures, methods and classes are named by number.

`Code.join` joins pieces of code, `Code.children` are the direct parts of a piece in
evaluation order, and `Code.fold` goes through all of them.
-/

namespace BlockLang

/-- What becomes of a positional argument that is not there. -/
inductive MissingArgument where
  /-- It is nil, as for blocks. -/
  | isNil
  /-- It is an error, as for methods and lambdas. -/
  | isError
deriving DecidableEq, Repr, Inhabited

/-- What nil becomes when an array is wanted. -/
inductive NilAsArray where
  | arrayWithNil
  | emptyArray
deriving DecidableEq, Repr, Inhabited

/-- A piece of lowered code. -/
inductive Code where
  | nil
  | bool (value : Bool)
  | integer (value : Int64)
  | float (value : Float)
  | text (value : String)
  | symbol (name : String)
  | self
  | array (items : List Code)
  | hash (pairs : List (Code × Code))
  /-- An operand that stands for the items of its value. -/
  | splat (inner : Code)
  | sequence (items : List Code)
  | ifElse (condition thenBranch elseBranch : Code)
  | and (left right : Code)
  | or (left right : Code)
  | not (inner : Code)
  /-- `body` for its effect and then `result`, which can be left out where no value is needed. -/
  | elidable (body result : Code)
  | readLocal (source : Local)
  | writeLocal (target : Local) (value : Code)
  | readInstanceVar (name : String)
  | writeInstanceVar (name : String) (value : Code)
  | readClassVar (name : String)
  | writeClassVar (name : String) (value : Code)
  | readGlobal (name : String)
  | writeGlobal (name : String) (value : Code)
  | constant (name : String)
  /-- Fails when the arguments do not fit. -/
  | checkArity (arity : Arity)
  /-- The positional argument at `index`. -/
  | argument (index : Nat) (missing : MissingArgument)
  /-- The argument at `index` when there are `minimum`, else the default. Where the callable
  takes keywords the minimum counts the argument that carries them. -/
  | optionalArgument (index minimum : Nat) (keywords : Bool) (required : Nat) (default : Code)
  /-- The arguments from `start` on, without the last `post`. -/
  | restArgument (start post : Nat) (keywords : Bool) (required : Nat)
  /-- The argument `fromEnd` from the end when there are `minimum`, else the one at `forward`. -/
  | postArgument (fromEnd forward minimum : Nat) (keywords : Bool) (required : Nat)
  /-- The keyword argument `name`, else the default. -/
  | keywordArgument (name : String) (required : Nat) (default : Code)
  /-- The keyword arguments that are not among `excluded`. -/
  | keywordRestArgument (required : Nat) (excluded : List String)
  /-- Fails for want of a keyword argument. -/
  | missingKeyword (name : String)
  /-- The block that was passed, or nil. -/
  | blockArgument
  /-- Whether a block got one argument that can be taken apart. -/
  | shouldDestructure
  /-- The item at `position`, counted from the end when negative. -/
  | index (source : Code) (position : Int)
  /-- The items from `start` on, without the last `endOffset`. -/
  | slice (source : Code) (start endOffset : Nat)
  | atLeast (source : Code) (size : Nat)
  /-- The value as an array. -/
  | splatCast (value : Code) (onNil : NilAsArray)
  | isNil (inner : Code)
  | call (receiver : Option Code) (method : String) (args : List Code) (block : Option Code)
  /-- The method of the same name further up; `forwardBlock` passes the method's own block. -/
  | super (args : List Code) (block : Option Code) (forwardBlock : Bool)
  | yield (args : List Code)
  /-- A closure over the current frame. -/
  | closure (body : BodyId) (lambda : Bool)
  /-- Ends when a `break` with this identity leaves `body`. -/
  | catchBreak (id : BreakId) (body : Code)
  | define (name : String) (body : BodyId)
  | openClass (name : String) (superclass : Option Code) (isModule : Bool) (body : BodyId)
  | loop (condition body : Code) (bodyFirst : Bool) (id : BreakId)
  | breakWith (id : BreakId) (value : Code)
  | nextWith (value : Code)
  | redo
  | retry
  | returnWith (id : ReturnId) (value : Code)

namespace Code

instance : Inhabited Code := ⟨.nil⟩

/-! ## Sequences -/

/-- The items of a sequence; other code is one item. -/
def items : Code → List Code
  | .sequence items => items
  | c => [c]

/-- The code without a result that is not needed. -/
def effectItems : Code → List Code
  | .elidable body _ => body.items
  | c => [c]

/-- Leaves out the results of all items but the last. -/
def elideResults : List Code → List Code
  | [] => []
  | [last] => [last]
  | c :: rest => c.effectItems ++ elideResults rest

/-- The items one after the other: nothing is nil, a single item is itself. -/
def ofItems : List Code → Code
  | [] => .nil
  | [c] => c
  | items => .sequence items

/-- Pieces of code one after the other. Sequences among them are opened, and results that are not
needed are left out. -/
def join (pieces : List Code) : Code :=
  ofItems (elideResults (pieces.flatMap items))

/-! ## Parts -/

/-- The direct parts, in evaluation order. -/
def children : Code → List Code
  | .array items => items
  | .sequence items => items
  | .yield args => args
  | .hash pairs => pairs.flatMap fun (key, value) => [key, value]
  | .splat inner => [inner]
  | .not inner => [inner]
  | .isNil inner => [inner]
  | .nextWith value => [value]
  | .ifElse condition thenBranch elseBranch => [condition, thenBranch, elseBranch]
  | .and left right => [left, right]
  | .or left right => [left, right]
  | .elidable body result => [body, result]
  | .writeLocal _ value => [value]
  | .writeInstanceVar _ value => [value]
  | .writeClassVar _ value => [value]
  | .writeGlobal _ value => [value]
  | .breakWith _ value => [value]
  | .returnWith _ value => [value]
  | .optionalArgument _ _ _ _ default => [default]
  | .keywordArgument _ _ default => [default]
  | .index source _ => [source]
  | .slice source _ _ => [source]
  | .atLeast source _ => [source]
  | .splatCast value _ => [value]
  | .call receiver _ args block => receiver.toList ++ args ++ block.toList
  | .super args block _ => args ++ block.toList
  | .catchBreak _ body => [body]
  | .openClass _ superclass _ _ => superclass.toList
  | .loop condition body _ _ => [condition, body]
  | _ => []

variable {α : Type}

mutual

/-- Goes through a tree of code from the leaves up: `f` gets a piece of code and what it gave for
the direct parts. -/
def fold (f : Code → List α → α) : Code → α
  | .array items => f (.array items) (foldEach f items)
  | .sequence items => f (.sequence items) (foldEach f items)
  | .yield args => f (.yield args) (foldEach f args)
  | .hash pairs => f (.hash pairs) (foldPairs f pairs)
  | .splat inner => f (.splat inner) [fold f inner]
  | .not inner => f (.not inner) [fold f inner]
  | .isNil inner => f (.isNil inner) [fold f inner]
  | .nextWith value => f (.nextWith value) [fold f value]
  | .ifElse condition thenBranch elseBranch =>
    f (.ifElse condition thenBranch elseBranch)
      [fold f condition, fold f thenBranch, fold f elseBranch]
  | .and left right => f (.and left right) [fold f left, fold f right]
  | .or left right => f (.or left right) [fold f left, fold f right]
  | .elidable body result => f (.elidable body result) [fold f body, fold f result]
  | .writeLocal target value => f (.writeLocal target value) [fold f value]
  | .writeInstanceVar name value => f (.writeInstanceVar name value) [fold f value]
  | .writeClassVar name value => f (.writeClassVar name value) [fold f value]
  | .writeGlobal name value => f (.writeGlobal name value) [fold f value]
  | .breakWith id value => f (.breakWith id value) [fold f value]
  | .returnWith id value => f (.returnWith id value) [fold f value]
  | .optionalArgument i minimum keywords required default =>
    f (.optionalArgument i minimum keywords required default) [fold f default]
  | .keywordArgument name required default =>
    f (.keywordArgument name required default) [fold f default]
  | .index source i => f (.index source i) [fold f source]
  | .slice source start endOffset => f (.slice source start endOffset) [fold f source]
  | .atLeast source size => f (.atLeast source size) [fold f source]
  | .splatCast value onNil => f (.splatCast value onNil) [fold f value]
  | .call receiver method args block =>
    f (.call receiver method args block)
      (foldOption f receiver ++ foldEach f args ++ foldOption f block)
  | .super args block forwardBlock =>
    f (.super args block forwardBlock) (foldEach f args ++ foldOption f block)
  | .catchBreak id body => f (.catchBreak id body) [fold f body]
  | .openClass name superclass isModule body =>
    f (.openClass name superclass isModule body) (foldOption f superclass)
  | .loop condition body bodyFirst id =>
    f (.loop condition body bodyFirst id) [fold f condition, fold f body]
  | c => f c []

def foldEach (f : Code → List α → α) : List Code → List α
  | [] => []
  | c :: rest => fold f c :: foldEach f rest

def foldPairs (f : Code → List α → α) : List (Code × Code) → List α
  | [] => []
  | (key, value) :: rest => fold f key :: fold f value :: foldPairs f rest

def foldOption (f : Code → List α → α) : Option Code → List α
  | none => []
  | some c => [fold f c]

end

/-- The code and all its parts, each before its own parts. -/
def preorder (c : Code) : List Code :=
  c.fold fun c parts => c :: parts.flatten

def readsLocal (c : Code) : Bool :=
  c.preorder.any fun
    | .readLocal _ => true
    | _ => false

end Code

end BlockLang
