import BlockLang.Decimal.Reading
import BlockLang.Json.Reader
import BlockLang.Syntax.Basic

/-!
# Syntax trees from JSON

The shape is given by the type. A record is an object, in which unknown members are ignored and no
known member may come twice, or an array of its fields in order. A form with contents is an object
with one member, a form without contents a string (or an object whose member is `null`).

Arrays and objects may nest 127 deep; what stands in ignored members does not count. The depth
that is left is the first argument of every reader, and what the recursion goes down on.
-/

namespace BlockLang

namespace Json

/-- The fields of a record as they were found: in an array, or by name. -/
structure Fields where
  positional : Bool
  values : List (Option Json)

/-- Whether one of `names` is the name of two members. -/
def repeats (names : List String) (members : List (JsonText × Json)) : Bool :=
  names.any fun name => (members.filter fun m => m.1 == some name).length > 1

/-- The fields called `names` of a record, in that order. -/
def fields? (names : List String) : Json → Option Fields
  | .object members =>
    if members.any (fun m => m.1.isNone) || repeats names members then none
    else some ⟨false, names.map fun name => members.lookup (some name)⟩
  | .array items =>
    if names.length < items.length then none
    else some ⟨true, items.map some ++ List.replicate (names.length - items.length) none⟩
  | _ => none

/-- Reads a field that has to be there. -/
def Fields.required {α : Type} (f : Fields) (i : Nat) (read : Json → Option α) : Option α := do
  let value ← (f.values[i]?).join
  read value

/-- Reads a field that has a default. -/
def Fields.withDefault {α : Type} (f : Fields) (i : Nat) (default : α) (read : Json → Option α) :
    Option α :=
  match (f.values[i]?).join with
  | none => some default
  | some value => read value

/-- Reads a value that may be `null`. -/
def nullable {α : Type} (read : Json → Option α) : Json → Option (Option α)
  | .null => some none
  | j => (read j).map some

/-- Reads a field that may be `null`, and may be missing from an object. -/
def Fields.optional {α : Type} (f : Fields) (i : Nat) (read : Json → Option α) :
    Option (Option α) :=
  if f.positional then f.required i (nullable read) else f.withDefault i none (nullable read)

def text? : Json → Option String
  | .string t => t
  | _ => none

def bool? : Json → Option Bool
  | .bool b => some b
  | _ => none

def uint64? : Json → Option UInt64
  | .number n => n.toUInt64?
  | _ => none

def int64? : Json → Option Int64
  | .number n => n.toInt64?
  | _ => none

def float? : Json → Option Float
  | .number n => n.toFloat?
  | _ => none

end Json

namespace Decode

open Json (Fields)

/-- A form: its name and contents, which are missing when it is a string. -/
inductive Form where
  | bare (name : String)
  | full (name : String) (contents : Json)

/-- The form that a value writes; one with contents uses up a level. -/
def form? : Json → Option Form
  | .string (some name) => some (.bare name)
  | .object [(some name, contents)] => some (.full name contents)
  | _ => none

def span? : Nat → Json → Option Span
  | 0, _ => none
  | _ + 1, j => do
    let f ← Json.fields? ["start", "end", "file_id"] j
    let start ← f.required 0 Json.uint64?
    let stop ← f.required 1 Json.uint64?
    let file ← f.required 2 Json.uint64?
    some { start, stop, file }

/-- A value in its place; the value is read one level further down. -/
def located? {α : Type} (depth : Nat) (read : Json → Option α) (j : Json) :
    Option (Located α) := do
  let f ← Json.fields? ["span", "value"] j
  let span ← f.withDefault 0 {} (span? depth)
  let value ← f.required 1 read
  some { span, value }

def locatedText? : Nat → Json → Option (Located String)
  | 0, _ => none
  | n + 1, j => located? n Json.text? j

def restParam? : Nat → Json → Option RestParam
  | 0, _ => none
  | _ + 1, j => do
    let f ← Json.fields? ["name"] j
    let name ← f.withDefault 0 none (Json.nullable Json.text?)
    some { name }

def locatedRest? : Nat → Json → Option (Located RestParam)
  | 0, _ => none
  | n + 1, j => located? n (restParam? n) j

def locatedTexts? : Nat → Json → Option (List (Located String))
  | n + 1, .array items => items.mapM (locatedText? n)
  | _, _ => none

/-- Expressions without contents. -/
def bareExpr? : String → Option Expr
  | "Nil" => some .nil
  | "True" => some (.bool true)
  | "False" => some (.bool false)
  | "SelfRef" => some .self
  | "Redo" => some .redo
  | "Retry" => some .retry
  | _ => none

mutual

/-- An expression without its place. -/
def expr? : Nat → Json → Option Expr
  | 0, j => do
    let .bare name ← form? j | none
    bareExpr? name
  | n + 1, j => do
    match ← form? j with
    | .bare name => bareExpr? name
    | .full name contents =>
      match name with
      | "Integer" => return .integer (← contents.int64?)
      | "Float" => return .float (← contents.float?)
      | "Str" => return .text (← contents.text?)
      | "Symbol" => return .symbol (← contents.text?)
      | "Array" => return .array (← exprs? n contents)
      | "Hash" => return .hash (← pairs? n contents)
      | "Splat" => return .splat (← locatedExpr? n contents)
      | "LocalVar" => return .localVar (← contents.text?)
      | "VCall" => return .bareName (← contents.text?)
      | "InstanceVar" => return .instanceVar (← contents.text?)
      | "ClassVar" => return .classVar (← contents.text?)
      | "GlobalVar" => return .globalVar (← contents.text?)
      | "Const" => return .constant (← contents.text?)
      | "Assign" => assign? n contents
      | "MultipleAssign" => multiAssign? n contents
      | "Call" => call? n contents
      | "Super" => super? n contents
      | "ZSuper" => bareSuper? n contents
      | "Yield" => return .yield (← exprs? n contents)
      | "Def" => define? n contents
      | "Lambda" => return .lambda (← locatedBlock? n contents)
      | "ClassDef" => classDef? n contents
      | "ModuleDef" => moduleDef? n contents
      | "If" => ifElse? n contents
      | "While" => loop? n contents
      | "For" => forEach? n contents
      | "And" => return (fun (a, b) => .and a b) (← pair? n contents)
      | "Or" => return (fun (a, b) => .or a b) (← pair? n contents)
      | "Not" => return .not (← locatedExpr? n contents)
      | "Break" => return .breakWith (← Json.nullable (locatedExpr? n) contents)
      | "Next" => return .nextWith (← Json.nullable (locatedExpr? n) contents)
      | "Return" => return .returnWith (← Json.nullable (locatedExpr? n) contents)
      | "Begin" => return .sequence (← exprs? n contents)
      | name =>
        match contents with
        | .null => bareExpr? name
        | _ => none

def locatedExpr? : Nat → Json → Option (Located Expr)
  | 0, _ => none
  | n + 1, j => located? n (expr? n) j

def exprs? : Nat → Json → Option (List (Located Expr))
  | n + 1, .array items => items.mapM (locatedExpr? n)
  | _, _ => none

/-- Two expressions in an array. -/
def pair? : Nat → Json → Option (Located Expr × Located Expr)
  | n + 1, .array [first, second] => do
    let first ← locatedExpr? n first
    let second ← locatedExpr? n second
    some (first, second)
  | _, _ => none

def pairs? : Nat → Json → Option (List (Located Expr × Located Expr))
  | n + 1, .array items => items.mapM (pair? n)
  | _, _ => none

def assign? : Nat → Json → Option Expr
  | 0, _ => none
  | n + 1, j => do
    let f ← Json.fields? ["target", "value"] j
    let target ← f.required 0 (locatedTarget? n)
    let value ← f.required 1 (locatedExpr? n)
    some (.assign target value)

def multiAssign? : Nat → Json → Option Expr
  | 0, _ => none
  | n + 1, j => do
    let f ← Json.fields? ["targets", "value"] j
    let targets ← f.required 0 (targets? n)
    let value ← f.optional 1 (locatedExpr? n)
    some (.multiAssign targets value)

def call? : Nat → Json → Option Expr
  | 0, _ => none
  | n + 1, j => do
    let f ← Json.fields? ["receiver", "method", "args", "block"] j
    let receiver ← f.optional 0 (locatedExpr? n)
    let method ← f.required 1 Json.text?
    let args ← f.withDefault 2 [] (exprs? n)
    let block ← f.withDefault 3 none (Json.nullable (blockArg? n))
    some (.call receiver method args block)

def super? : Nat → Json → Option Expr
  | 0, _ => none
  | n + 1, j => do
    let f ← Json.fields? ["args", "block"] j
    let args ← f.withDefault 0 [] (exprs? n)
    let block ← f.withDefault 1 none (Json.nullable (blockArg? n))
    some (.super args block)

def bareSuper? : Nat → Json → Option Expr
  | 0, _ => none
  | n + 1, j => do
    let f ← Json.fields? ["block"] j
    let block ← f.withDefault 0 none (Json.nullable (blockArg? n))
    some (.bareSuper block)

def define? : Nat → Json → Option Expr
  | 0, _ => none
  | n + 1, j => do
    let f ← Json.fields? ["name", "params", "body"] j
    let name ← f.required 0 (locatedText? n)
    let params ← f.withDefault 1 .empty (params? n)
    let body ← f.required 2 (exprs? n)
    some (.define name params body)

def classDef? : Nat → Json → Option Expr
  | 0, _ => none
  | n + 1, j => do
    let f ← Json.fields? ["name", "superclass", "body"] j
    let name ← f.required 0 Json.text?
    let superclass ← f.withDefault 1 none (Json.nullable (locatedExpr? n))
    let body ← f.required 2 (exprs? n)
    some (.classDef name superclass body)

def moduleDef? : Nat → Json → Option Expr
  | 0, _ => none
  | n + 1, j => do
    let f ← Json.fields? ["name", "body"] j
    let name ← f.required 0 Json.text?
    let body ← f.required 1 (exprs? n)
    some (.moduleDef name body)

def ifElse? : Nat → Json → Option Expr
  | 0, _ => none
  | n + 1, j => do
    let f ← Json.fields? ["condition", "then_branch", "else_branch"] j
    let condition ← f.required 0 (locatedExpr? n)
    let thenBranch ← f.required 1 (exprs? n)
    let elseBranch ← f.withDefault 2 [] (exprs? n)
    some (.ifElse condition thenBranch elseBranch)

def loop? : Nat → Json → Option Expr
  | 0, _ => none
  | n + 1, j => do
    let f ← Json.fields? ["condition", "body", "do_while", "until"] j
    let condition ← f.required 0 (locatedExpr? n)
    let body ← f.required 1 (exprs? n)
    let bodyFirst ← f.withDefault 2 false Json.bool?
    let negated ← f.withDefault 3 false Json.bool?
    some (.loop condition body bodyFirst negated)

def forEach? : Nat → Json → Option Expr
  | 0, _ => none
  | n + 1, j => do
    let f ← Json.fields? ["target", "iterable", "body"] j
    let target ← f.required 0 (locatedTarget? n)
    let iterable ← f.required 1 (locatedExpr? n)
    let body ← f.required 2 (exprs? n)
    some (.forEach target iterable body)

/-- A target without its place. -/
def target? : Nat → Json → Option Target
  | 0, _ => none
  | n + 1, j => do
    let .full name contents ← form? j | none
    match name with
    | "Local" => return .localVar (← contents.text?)
    | "InstanceVar" => return .instanceVar (← contents.text?)
    | "ClassVar" => return .classVar (← contents.text?)
    | "Global" => return .globalVar (← contents.text?)
    | "Index" => indexTarget? n contents
    | "Attribute" => attributeTarget? n contents
    | "Nested" => return .nested (← targets? n contents)
    | _ => none

def indexTarget? : Nat → Json → Option Target
  | 0, _ => none
  | n + 1, j => do
    let f ← Json.fields? ["receiver", "args"] j
    let receiver ← f.required 0 (locatedExpr? n)
    let args ← f.required 1 (exprs? n)
    some (.index receiver args)

def attributeTarget? : Nat → Json → Option Target
  | 0, _ => none
  | n + 1, j => do
    let f ← Json.fields? ["receiver", "name"] j
    let receiver ← f.required 0 (locatedExpr? n)
    let name ← f.required 1 Json.text?
    some (.attribute receiver name)

def locatedTarget? : Nat → Json → Option (Located Target)
  | 0, _ => none
  | n + 1, j => located? n (target? n) j

def targetList? : Nat → Json → Option (List (Located Target))
  | n + 1, .array items => items.mapM (locatedTarget? n)
  | _, _ => none

def restTarget? : Nat → Json → Option RestTarget
  | 0, j => do
    let .bare "Anonymous" ← form? j | none
    some .anonymous
  | n + 1, j => do
    match ← form? j with
    | .bare "Anonymous" => some .anonymous
    | .full "Anonymous" .null => some .anonymous
    | .full "Named" contents => return .named (← locatedTarget? n contents)
    | _ => none

def targets? : Nat → Json → Option Targets
  | 0, _ => none
  | n + 1, j => do
    let f ← Json.fields? ["pre", "rest", "post"] j
    let pre ← f.withDefault 0 [] (targetList? n)
    let rest ← f.withDefault 1 none (Json.nullable (restTarget? n))
    let post ← f.withDefault 2 [] (targetList? n)
    some ⟨pre, rest, post⟩

def blockArg? : Nat → Json → Option BlockArg
  | 0, _ => none
  | n + 1, j => do
    let .full name contents ← form? j | none
    match name with
    | "Literal" => return .literal (← locatedBlock? n contents)
    | "Pass" => return .pass (← locatedExpr? n contents)
    | _ => none

def blockLiteral? : Nat → Json → Option BlockLiteral
  | 0, _ => none
  | n + 1, j => do
    let f ← Json.fields? ["params", "body"] j
    let params ← f.withDefault 0 .empty (params? n)
    let body ← f.required 1 (exprs? n)
    some ⟨params, body⟩

def locatedBlock? : Nat → Json → Option (Located BlockLiteral)
  | 0, _ => none
  | n + 1, j => located? n (blockLiteral? n) j

def pattern? : Nat → Json → Option Pattern
  | 0, _ => none
  | n + 1, j => do
    let .full name contents ← form? j | none
    match name with
    | "Required" => return .required (← contents.text?)
    | "Destructure" => return .destructure (← targets? n contents)
    | _ => none

def locatedPattern? : Nat → Json → Option (Located Pattern)
  | 0, _ => none
  | n + 1, j => located? n (pattern? n) j

def patterns? : Nat → Json → Option (List (Located Pattern))
  | n + 1, .array items => items.mapM (locatedPattern? n)
  | _, _ => none

def optionalParam? : Nat → Json → Option OptionalParam
  | 0, _ => none
  | n + 1, j => do
    let f ← Json.fields? ["name", "default"] j
    let name ← f.required 0 Json.text?
    let default ← f.required 1 (locatedExpr? n)
    some ⟨name, default⟩

def locatedOptional? : Nat → Json → Option (Located OptionalParam)
  | 0, _ => none
  | n + 1, j => located? n (optionalParam? n) j

def optionalParams? : Nat → Json → Option (List (Located OptionalParam))
  | n + 1, .array items => items.mapM (locatedOptional? n)
  | _, _ => none

def keywordParam? : Nat → Json → Option KeywordParam
  | 0, _ => none
  | n + 1, j => do
    let f ← Json.fields? ["name", "default"] j
    let name ← f.required 0 Json.text?
    let default ← f.withDefault 1 none (Json.nullable (locatedExpr? n))
    some ⟨name, default⟩

def locatedKeyword? : Nat → Json → Option (Located KeywordParam)
  | 0, _ => none
  | n + 1, j => located? n (keywordParam? n) j

def keywordParams? : Nat → Json → Option (List (Located KeywordParam))
  | n + 1, .array items => items.mapM (locatedKeyword? n)
  | _, _ => none

def params? : Nat → Json → Option Params
  | 0, _ => none
  | n + 1, j => do
    let f ← Json.fields? ["pre", "optional", "rest", "post", "keywords", "keyword_rest", "block",
      "block_locals"] j
    let pre ← f.withDefault 0 [] (patterns? n)
    let optional ← f.withDefault 1 [] (optionalParams? n)
    let rest ← f.withDefault 2 none (Json.nullable (locatedRest? n))
    let post ← f.withDefault 3 [] (patterns? n)
    let keywords ← f.withDefault 4 [] (keywordParams? n)
    let keywordRest ← f.withDefault 5 none (Json.nullable (locatedRest? n))
    let block ← f.withDefault 6 none (Json.nullable (locatedText? n))
    let blockLocals ← f.withDefault 7 [] (locatedTexts? n)
    some ⟨pre, optional, rest, post, keywords, keywordRest, block, blockLocals⟩

end

def program? : Nat → Json → Option Program
  | 0, _ => none
  | n + 1, j => do
    let f ← Json.fields? ["body", "span"] j
    let body ← f.required 0 (exprs? n)
    let span ← f.withDefault 1 {} (span? n)
    some { body, span }

end Decode

/-- How deep arrays and objects may nest. -/
def Json.maxDepth : Nat := 127

/-- The program that a JSON value writes. -/
def Program.ofJson? (j : Json) : Option Program := Decode.program? Json.maxDepth j

/-- The parameters that a JSON value writes. -/
def Params.ofJson? (j : Json) : Option Params := Decode.params? Json.maxDepth j

/-- The program that a JSON text writes. -/
def Program.parse? (text : String) : Option Program := do
  Program.ofJson? (← Json.parse? text)

end BlockLang
