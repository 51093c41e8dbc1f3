import BlockLang.Lowering.Destructure
import BlockLang.Lowering.Parameters

/-!
# Lowering expressions

One recursion on the tree. A statement with a mistake is reported and becomes nil, so that the
statements after it are still checked; anywhere else a mistake gives up the statement.
-/

namespace BlockLang

/-- The block of a call after lowering. -/
inductive BlockOperand where
  | absent
  | passed (block : Code)
  /-- A block written out, and what a `break` in it leaves. -/
  | literal (block : Code) (breakId : Option BreakId)

/-- A call with its block. -/
def BlockOperand.call (receiver : Option Code) (method : String) (args : List Code) :
    BlockOperand → Code
  | absent => .call receiver method args none
  | passed block => .call receiver method args (some block)
  | literal block breakId => Lower.catchBreak breakId (.call receiver method args (some block))

/-- A call of the method further up; without a block it gets the method's own. -/
def BlockOperand.super (args : List Code) : BlockOperand → Code
  | absent => .super args none true
  | passed block => .super args (some block) false
  | literal block breakId => Lower.catchBreak breakId (.super args (some block) false)

namespace Lower

/-- Refuses what may only stand in a method. -/
def requireMethod (mistake : Mistake) (span : Span) : Lower Params := do
  match (← read).method with
  | some params => return params
  | none => fail mistake span

/-- What a `return` becomes. A class has nothing to return from, but a loop in it can be left. -/
def returnWith (value : Code) (span : Span) : Lower Code := do
  let scope ← currentScope
  match scope.returnId, (← read).inLoop, scope.breakId with
  | some id, _, _ => return .returnWith id value
  | none, true, some id => return .breakWith id value
  | _, _, _ => fail .returnOutsideMethod span

/-- What a `break` leaves. -/
def breakTarget (span : Span) : Lower BreakId := do
  match (← currentScope).breakId with
  | some id => return id
  | none => fail .breakOutsideLoop span

mutual

/-- Lowers an expression. -/
def expr : Located Expr → Lower Code
  | ⟨_, .nil⟩ => return .nil
  | ⟨_, .bool value⟩ => return .bool value
  | ⟨_, .integer value⟩ => return .integer value
  | ⟨_, .float value⟩ => return .float value
  | ⟨_, .text value⟩ => return .text value
  | ⟨_, .symbol name⟩ => return .symbol name
  | ⟨_, .array items⟩ => return .array (← args items)
  | ⟨_, .hash entries⟩ => return .hash (← pairs entries)
  | ⟨_, .splat inner⟩ => return .splatCast (← expr inner) .emptyArray
  | ⟨_, .self⟩ => return .self
  | ⟨span, .localVar name⟩ => readLocal name span
  | ⟨_, .bareName name⟩ => do
    match ← resolve? name with
    | some found => return .readLocal found
    | none => return .call none name [] none
  | ⟨_, .instanceVar name⟩ => return .readInstanceVar name
  | ⟨_, .classVar name⟩ => return .readClassVar name
  | ⟨_, .globalVar name⟩ => readGlobal name
  | ⟨_, .constant name⟩ => return .constant name
  | ⟨_, .assign target value⟩ => do
    let value ← expr value
    assign target value
  | ⟨_, .multiAssign ⟨pre, rest, post⟩ none⟩ =>
    destructure pre.length post.length (assignEach pre) (assignRest rest) (assignEach post) .nil
  | ⟨_, .multiAssign ⟨pre, none, []⟩ (some ⟨_, .array items⟩)⟩ => do
    if (Expr.fixedItems? (.array items)).isSome && items.length == pre.length then
      assignItems (← itemTemps items) (assignEach pre)
    else
      let right ← Code.array <$> args items
      keepingRight right (destructure pre.length 0 (assignEach pre) (fun _ => return [])
        (fun _ => return []))
  | ⟨_, .multiAssign ⟨[], some (.named target), []⟩ (some ⟨_, .array items⟩)⟩ => do
    let right ← Code.array <$> args items
    assign target right
  | ⟨_, .multiAssign ⟨[], some (.named target), []⟩ (some value)⟩ => do
    let right ← expr value
    let onNil ← nilAsArray
    keepingRight right fun kept => assign target (.splatCast kept onNil)
  | ⟨_, .multiAssign ⟨[], some .anonymous, []⟩ (some value)⟩ => expr value
  | ⟨_, .multiAssign ⟨pre, rest, post⟩ (some value)⟩ => do
    let right ← expr value
    keepingRight right
      (destructure pre.length post.length (assignEach pre) (assignRest rest) (assignEach post))
  | ⟨_, .call receiver method arguments block⟩ => do
    let receiver ← optionalExpr receiver
    let arguments ← args arguments
    return (← blockOperand block).call receiver method arguments
  | ⟨span, .super arguments block⟩ => do
    let _ ← requireMethod .superOutsideMethod span
    let arguments ← args arguments
    return (← blockOperand block).super arguments
  | ⟨span, .bareSuper block⟩ => do
    let arguments ← replay (← requireMethod .superOutsideMethod span) span
    return (← blockOperand block).super arguments
  | ⟨span, .yield arguments⟩ => do
    let _ ← requireMethod .yieldOutsideMethod span
    return .yield (← args arguments)
  | ⟨span, .define ⟨_, name⟩ params body⟩ => do
    let id ← reserveBody
    let scope ← onScopes fun s => s.addRoot .method
    let _ ← addBody id name .method scope params.arity span
      (rootContext scope .method (some params) name)
      (callable params (binding span params) (statements body))
    return .define name id
  | ⟨_, .lambda literal⟩ => return (← closure literal true).1
  | ⟨span, .classDef name superclass body⟩ => do
    let superclass ← optionalExpr superclass
    let id ← reserveBody
    let scope ← onScopes fun s => s.addRoot .classBody
    let _ ← addBody id name .classBody scope {} span (rootContext scope .classBody none name)
      (Code.join <$> statements body)
    return .openClass name superclass false id
  | ⟨span, .moduleDef name body⟩ => do
    let id ← reserveBody
    let scope ← onScopes fun s => s.addRoot .moduleBody
    let _ ← addBody id name .moduleBody scope {} span (rootContext scope .moduleBody none name)
      (Code.join <$> statements body)
    return .openClass name none true id
  | ⟨_, .ifElse condition thenBranch elseBranch⟩ => do
    let condition ← expr condition
    let thenBranch ← statements thenBranch
    let elseBranch ← statements elseBranch
    return .ifElse condition (.join thenBranch) (.join elseBranch)
  | ⟨_, .loop condition body bodyFirst negated⟩ => do
    let id ← onScopes Scopes.freshBreak
    let (condition, body) ← withLoop id do
      let condition ← attempt (expr condition)
      let body ← statements body
      return (condition, body)
    let condition ← match condition with
      | .ok condition => pure condition
      | .error d => throw d
    return .loop (if negated then .not condition else condition) (.join body) bodyFirst id
  | ⟨span, .forEach target iterable body⟩ => do
    let iterable ← expr iterable
    let outer ← read
    let scope ← onScopes fun s => s.addBlock outer.scope false
    let id ← reserveBody
    let name := s!"block in {outer.scopeName}"
    let breakId ← addBody id name .block scope { pre := 1 } span (closureContext scope .block) do
      let item ← addTemp "for"
      let bind := Code.writeLocal item (.argument 0 .isNil)
      let assignment ← recover .nil (assign target (.readLocal item))
      let body ← statements body
      return .join [bind, assignment, .join body]
    return catchBreak breakId (.call (some iterable) "each" [] (some (.closure id false)))
  | ⟨_, .and left right⟩ => do
    let left ← expr left
    let right ← expr right
    return .and left right
  | ⟨_, .or left right⟩ => do
    let left ← expr left
    let right ← expr right
    return .or left right
  | ⟨_, .not inner⟩ => return .not (← expr inner)
  | ⟨span, .breakWith value⟩ => do
    let id ← breakTarget span
    let value ← optionalExpr value
    return .breakWith id (value.getD .nil)
  | ⟨span, .nextWith value⟩ => do
    requireClosureOrLoop .nextOutsideLoop span
    let value ← during .next (optionalExpr value)
    return .nextWith (value.getD .nil)
  | ⟨span, .redo⟩ => do
    requireClosureOrLoop .redoOutsideLoop span
    return .redo
  | ⟨span, .retry⟩ => do
    requireClosureOrLoop .retryOutsideLoop span
    return .retry
  | ⟨span, .returnWith value⟩ => do
    let value ← optionalExpr value
    returnWith (value.getD .nil) span
  | ⟨_, .sequence body⟩ => return .join (← statements body)

def optionalExpr : Option (Located Expr) → Lower (Option Code)
  | none => return none
  | some e => return some (← expr e)

/-- Statements one after the other; one with a mistake becomes nil. -/
def statements : List (Located Expr) → Lower (List Code)
  | [] => return []
  | e :: rest => do
    let first ← recover .nil (expr e)
    let rest ← statements rest
    return first :: rest

/-- Arguments, or items of an array; a splat among them spreads. -/
def args : List (Located Expr) → Lower (List Code)
  | [] => return []
  | ⟨_, .splat inner⟩ :: rest => do
    let first ← Code.splat <$> expr inner
    let rest ← args rest
    return first :: rest
  | e :: rest => do
    let first ← expr e
    let rest ← args rest
    return first :: rest

def pairs : List (Located Expr × Located Expr) → Lower (List (Code × Code))
  | [] => return []
  | (key, value) :: rest => do
    let key ← expr key
    let value ← expr value
    let rest ← pairs rest
    return (key, value) :: rest

/-- Items, each with a hidden variable to keep it in. -/
def itemTemps : List (Located Expr) → Lower (List (Local × Code))
  | [] => return []
  | e :: rest => do
    let value ← expr e
    let temp ← addTemp "masgn"
    let rest ← itemTemps rest
    return (temp, value) :: rest

/-- Assigns a lowered value. -/
def assign : Located Target → Code → Lower Code
  | ⟨_, .localVar name⟩, value => return .writeLocal (← resolveForAssignment name) value
  | ⟨_, .instanceVar name⟩, value => return .writeInstanceVar name value
  | ⟨_, .classVar name⟩, value => return .writeClassVar name value
  | ⟨_, .globalVar name⟩, value => writeGlobal name value
  | ⟨_, .index receiver indices⟩, value => do
    let receiver ← expr receiver
    let indices ← args indices
    return .call (some receiver) "[]=" (indices ++ [value]) none
  | ⟨_, .attribute receiver name⟩, value => do
    let receiver ← expr receiver
    return .call (some receiver) s!"{name}=" [value] none
  | ⟨_, .nested ⟨pre, rest, post⟩⟩, value =>
    destructure pre.length post.length (assignEach pre) (assignRest rest) (assignEach post) value

/-- Assigns to every target the value of its number. -/
def assignEach : List (Located Target) → (Nat → Code) → Lower (List Code)
  | [], _ => return []
  | target :: rest, value => do
    let first ← assign target (value 0)
    let rest ← assignEach rest fun i => value (i + 1)
    return first :: rest

/-- Assigns the rest, if it has a name. -/
def assignRest : Option RestTarget → Code → Lower (List Code)
  | some (.named target), value => return [← assign target value]
  | _, _ => return []

def blockOperand : Option BlockArg → Lower BlockOperand
  | none => return .absent
  | some (.pass value) => return .passed (← expr value)
  | some (.literal block) => do
    let (code, breakId) ← closure block false
    return .literal code breakId

/-- A block or lambda as a body of its own; the answer creates the closure. -/
def closure : Located BlockLiteral → Bool → Lower (Code × Option BreakId)
  | ⟨span, ⟨params, body⟩⟩, lambda => do
    let outer ← read
    let (kind, name) :=
      if lambda then (BodyKind.lambda, "<lambda>") else (.block, s!"block in {outer.scopeName}")
    let scope ← onScopes fun s =>
      if lambda then s.addLambda outer.scope else s.addBlock outer.scope false
    let id ← reserveBody
    let breakId ← addBody id name kind scope params.arity span (closureContext scope kind)
      (callable params (binding span params) (statements body))
    return (.closure id lambda, breakId)

/-- The binding code of a callable at `span`. -/
def binding (span : Span) : Params → Lower (List Code)
  | ⟨pre, optional, rest, post, keywords, keywordRest, block, blockLocals⟩ =>
    let params : Params :=
      ⟨pre, optional, rest, post, keywords, keywordRest, block, blockLocals⟩
    let pending := pendingAfter params.boundNames (Params.patternNames pre)
    let later := pendingAfter pending
      (optional.map (·.value.name) ++ rest.toList.map (·.value.slotName) ++
        Params.patternNames post)
    let defaults : Lower Defaults := do
      let optional ← optionalDefaults span pending optional
      let keywords ← keywordDefaults span later keywords
      return { optional, keywords }
    prelude params defaults (bindEach pre) (bindEach post)

/-- Default values of optional parameters; `pending` are bound after the first of them. -/
def optionalDefaults (span : Span) (pending : List String) :
    List (Located OptionalParam) → Lower (List Code)
  | [] => return []
  | ⟨_, ⟨name, value⟩⟩ :: rest => do
    let pending := pendingAfter pending [name]
    let first ← defaultValue name pending span value (expr value)
    let rest ← optionalDefaults span pending rest
    return first :: rest

def keywordDefaults (span : Span) (pending : List String) :
    List (Located KeywordParam) → Lower (List Code)
  | [] => return []
  | ⟨_, ⟨name, none⟩⟩ :: rest => do
    let rest ← keywordDefaults span (pendingAfter pending [name]) rest
    return .missingKeyword name :: rest
  | ⟨_, ⟨name, some value⟩⟩ :: rest => do
    let pending := pendingAfter pending [name]
    let first ← defaultValue name pending span value (expr value)
    let rest ← keywordDefaults span pending rest
    return first :: rest

/-- Binds required parameters, each to the value of its number. -/
def bindEach : List (Located Pattern) → (Nat → Code) → Lower (List Code)
  | [], _ => return []
  | ⟨_, .required name⟩ :: rest, value => do
    let first ← writeOwn name (value 0)
    let rest ← bindEach rest fun i => value (i + 1)
    return first :: rest
  | ⟨_, .destructure ⟨pre, middle, post⟩⟩ :: rest, value => do
    let first ← destructure pre.length post.length (assignEach pre) (assignRest middle)
      (assignEach post) (value 0)
    let rest ← bindEach rest fun i => value (i + 1)
    return first :: rest

end

end Lower

end BlockLang
