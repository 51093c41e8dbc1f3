import BlockLang.Lowering.Basic

/-!
# Binding parameters

The first code of a callable moves the arguments into the slots of its parameters. A block that is
called with one array takes the items of the array for its arguments, so its code has two versions
of the binding: one reads the arguments, one reads an array.
-/

namespace BlockLang

/-- Where the values of parameters come from. -/
inductive ArgumentSource where
  | arguments (missing : MissingArgument)
  | items (array : Local)

namespace ArgumentSource

/-- The value at a position from the front. -/
def atPosition : ArgumentSource → Nat → Code
  | arguments missing, i => .argument i missing
  | items array, i => .index (.readLocal array) i

/-- The value of the optional parameter at a position. -/
def optional (source : ArgumentSource) (arity : Arity) (position : Nat) (default : Code) : Code :=
  match source with
  | arguments _ =>
    .optionalArgument position (arity.optionalMinimum position) arity.takesKeywords
      arity.required default
  | items array =>
    .ifElse (.atLeast (.readLocal array) (position + 1 + arity.post))
      (.index (.readLocal array) position) default

/-- The value of the rest parameter. -/
def rest (source : ArgumentSource) (arity : Arity) : Code :=
  let start := arity.pre + arity.optional
  match source with
  | arguments _ => .restArgument start arity.post arity.takesKeywords arity.required
  | items array => .slice (.readLocal array) start arity.post

/-- The value of the `k`-th required parameter at the end. -/
def post (source : ArgumentSource) (arity : Arity) (k : Nat) : Code :=
  let fromEnd := arity.post - k
  let forward := arity.pre + k
  match source with
  | arguments _ =>
    .postArgument fromEnd forward arity.required arity.takesKeywords arity.required
  | items array =>
    .ifElse (.atLeast (.readLocal array) arity.required)
      (.index (.readLocal array) (-(fromEnd : Int)))
      (.index (.readLocal array) forward)

end ArgumentSource

/-- The lowered default values. A required keyword has one that fails. -/
structure Defaults where
  optional : List Code
  keywords : List Code

namespace Lower

def writeOwn (name : String) (value : Code) : Lower Code := do
  return .writeLocal (← ownLocal name) value

/-- The names that a default value may not read when `bound` are bound before it. -/
def pendingAfter (pending bound : List String) : List String :=
  pending.filter fun name => !bound.contains name

/-- The first read of a pending parameter in a default value. -/
def forwardReference? (pending : List String) (e : Located Expr) : Option String :=
  (Expr.inScope e).findSome? fun part =>
    match part.value with
    | .localVar name | .bareName name => if pending.contains name then some name else none
    | _ => none

/-- Whether an expression is just the name. -/
def isRead (name : String) : Expr → Bool
  | .localVar n | .bareName n => n == name
  | _ => false

/-- The default value of a parameter, given how to lower it. A default that is the parameter
itself reads the parameter's own slot. -/
def defaultValue (parameter : String) (pending : List String) (span : Span) (e : Located Expr)
    (lowered : Lower Code) : Lower Code := do
  if isRead parameter e.value then
    return .readLocal (← ownLocal parameter)
  if (← read).options.rejectForwardReferences then
    if let some name := forwardReference? pending e then
      fail (.forwardReference parameter name) (if e.span = {} then span else e.span)
  lowered

/-- Writes of optional parameters, the first of which is at `position`. -/
def bindOptional (source : ArgumentSource) (arity : Arity) :
    Nat → List (Located OptionalParam) → List Code → Lower (List Code)
  | position, p :: params, default :: defaults => do
    let write ← writeOwn p.value.name (source.optional arity position default)
    return write :: (← bindOptional source arity (position + 1) params defaults)
  | _, _, _ => return []

def bindKeywords (arity : Arity) : List (Located KeywordParam) → List Code → Lower (List Code)
  | p :: params, default :: defaults => do
    let write ← writeOwn p.value.name (.keywordArgument p.value.name arity.required default)
    return write :: (← bindKeywords arity params defaults)
  | _, _ => return []

/-- Writes of all parameters in binding order. `bindPre` and `bindPost` bind the required ones to
values given by number. -/
def bindParameters (params : Params) (defaults : Defaults) (source : ArgumentSource)
    (bindPre bindPost : (Nat → Code) → Lower (List Code)) : Lower (List Code) := do
  let arity := params.arity
  let pre ← bindPre source.atPosition
  let optional ← bindOptional source arity arity.pre params.optional defaults.optional
  let rest ← params.rest.toList.mapM fun r => writeOwn r.value.slotName (source.rest arity)
  let post ← bindPost (source.post arity)
  let keywords ← bindKeywords arity params.keywords defaults.keywords
  let keywordRest ← params.keywordRest.toList.mapM fun r =>
    writeOwn r.value.keywordSlotName (.keywordRestArgument arity.required arity.keywords)
  let block ← params.block.toList.mapM fun b => writeOwn b.value .blockArgument
  return pre ++ optional ++ rest ++ post ++ keywords ++ keywordRest ++ block

/-- The binding code of a callable: a check of the arguments where they have to fit, the writes of
the parameters, and nil for the block's own variables. -/
def prelude (params : Params) (defaults : Lower Defaults)
    (bindPre bindPost : (Nat → Code) → Lower (List Code)) : Lower (List Code) := do
  let kind := (← read).kind
  let arity := params.arity
  let defaults ← defaults
  let source := ArgumentSource.arguments (if kind.isStrict then .isError else .isNil)
  let positional ← bindParameters params defaults source bindPre bindPost
  let binding ←
    if kind == .block && !arity.keepsArray then do
      let array ← addTemp "destructure"
      let fromItems ← bindParameters params defaults (.items array) bindPre bindPost
      let coerce := Code.writeLocal array (.splatCast (.argument 0 .isNil) .arrayWithNil)
      pure [Code.ifElse .shouldDestructure (.join (coerce :: fromItems)) (.join positional)]
    else
      pure positional
  let check := if kind.isStrict then [Code.checkArity arity] else []
  let locals ← params.blockLocals.mapM fun b => writeOwn b.value .nil
  return check ++ binding ++ locals

/-- The code of a callable, given its binding code and statements. -/
def callable (params : Params) (binding : Lower (List Code)) (statements : Lower (List Code)) :
    Lower Code := do
  declareAll params.declaredNames
  let binding ← recover [] binding
  let statements ← statements
  return .join (binding ++ [.join statements])

/-! ## Passing parameters on -/

/-- The first kind of parameter that a bare `super` cannot pass on. -/
def replayObstacle? (p : Params) : Option String :=
  let isDestructured (q : Located Pattern) := match q.value with
    | .destructure _ => true
    | .required _ => false
  if !p.post.isEmpty then some "post"
  else if !p.keywords.isEmpty then some "keyword"
  else if p.keywordRest.isSome then some "keyword rest"
  else if p.pre.any isDestructured then some "destructured"
  else none

def replayRead (span : Span) (name : String) : Lower Code := do
  match ← resolve? name with
  | some found => return .readLocal found
  | none => fail (.unresolvedLocal name) span

/-- The arguments of a bare `super`: what the method's parameters hold now. -/
def replay (p : Params) (span : Span) : Lower (List Code) := do
  if let some what := replayObstacle? p then
    fail (.unsupportedReplay what) span
  let names := Params.patternNames p.pre ++ p.optional.map (·.value.name)
  let args ← names.mapM (replayRead span)
  let rest ← p.rest.toList.mapM fun r => Code.splat <$> replayRead span r.value.slotName
  return args ++ rest

end Lower

end BlockLang
