import BlockLang.Core.Method
import BlockLang.Machine.Arguments
import BlockLang.Machine.Basic

/-!
# Steps of the machine

`Setting.eval` starts a piece of code, `Setting.resume` gives a value to a continuation,
`Setting.unwind` takes an exit to one, and `Setting.call` finds what a call calls. `Setting.step`
is one step of the machine.
-/

namespace BlockLang

/-- The items that a splat stands for. -/
def Store.spread (s : Store) : Value → List Value × Store
  | .array id => ((s.array id).toList, s)
  | .nil => ([], s)
  | .hash id => s.newPairs (s.hash id).entries
  | v => ([v], s)

/-- Whether the value is an object with a `to_ary` method. -/
def Store.hasToAry (s : Store) : Value → Bool
  | .object id => (s.findMethod? (s.object id).classId "to_ary").isSome
  | _ => false

namespace Setting

variable (σ : Setting) (store : Store) (depth : Nat) (stack : List Cont)

def giving (v : Value) : Machine := ⟨store, depth, stack, .give v⟩

def leaving (e : Exit) : Machine := ⟨store, depth, stack, .leave e⟩

def raising (f : Fault) : Machine := ⟨store, depth, stack, .leave (.raise f)⟩

def halting (c : Crash) : Machine := ⟨store, depth, stack, .halt c⟩

def evaluating (frame : FrameId) (code : Code) : Machine := ⟨store, depth, stack, .eval frame code⟩

/-- Goes on with a value and the store that it was made in. -/
def givingNew (made : Value × Store) : Machine := giving made.2 depth stack made.1

/-! ## Calls -/

/-- Runs the body of a method. -/
def invokeMethod (receiver : Value) (owner : ClassId) (id : BodyId) (name : String)
    (args : List Value) (block : Option ClosureId) : Machine :=
  match σ.unit.body? id with
  | none => raising store depth stack (.unknownBody id)
  | some body =>
    if σ.maxDepth ≤ depth then raising store depth stack .tooDeep
    else
      let (frame, store) := store.newFrame {
        body := id, self := receiver, arguments := args, block,
        invocation := some { name, owner, block }, definee := owner,
        slots := Store.blankSlots body.slots.length }
      evaluating store (depth + 1) (.method body :: stack) frame body.code

/-- Runs the body of a closure. -/
def invokeClosure (id : ClosureId) (args : List Value) (block : Option ClosureId) : Machine :=
  let closure := store.closure id
  match σ.unit.body? closure.body with
  | none => raising store depth stack (.unknownBody closure.body)
  | some body =>
    if σ.maxDepth ≤ depth then raising store depth stack .tooDeep
    else
      let (frame, store) := store.newFrame {
        body := closure.body, self := closure.self, arguments := args, block,
        invocation := closure.invocation, definee := closure.definee,
        parent := if σ.keepsFrame body then closure.frame else none,
        slots := Store.blankSlots body.slots.length }
      evaluating store (depth + 1) (.closure frame body :: stack) frame body.code

/-- Calls a block that has to be there. -/
def invokeBlock (block : Option ClosureId) (args : List Value) : Machine :=
  match block with
  | some id => σ.invokeClosure store depth stack id args none
  | none => raising store depth stack .noBlock

/-- The next call of an iteration, or its end. -/
def iterate (block : Option ClosureId) (iteration : Iteration) : Machine :=
  match iteration.args? with
  | some args => σ.invokeBlock store depth (.iterate block iteration :: stack) block args
  | none => givingNew depth stack (iteration.result store)

/-- A new object, set up by its `initialize` method if there is one. -/
def construct (id : ClassId) (args : List Value) (block : Option ClosureId) : Machine :=
  let info := store.classInfo id
  if info.isModule then raising store depth stack (.noMethod "new" info.name)
  else
    let (object, store) := store.newObject id
    match store.findMethod? id "initialize" with
    | some (owner, body) =>
      σ.invokeMethod store depth (.construct object :: stack) object owner body "initialize" args
        block
    | none =>
      if args.isEmpty then giving store depth stack object
      else raising store depth stack (.wrongCount args.length {})

/-- Calls a core method. Without one the call is of the unknown method `label`. -/
def callCore (frame : FrameId) (receiver : Value) (name label : String) (args : List Value)
    (block : Option ClosureId) : Machine :=
  let (reply, store) := (Core.method (store.frame frame) receiver name args block).run.run store
  match reply with
  | .error (.fault f) => raising store depth stack f
  | .error (.crash c) => halting store depth stack c
  | .ok none => raising store depth stack (.noMethod label (store.typeName receiver))
  | .ok (some (.value v)) => giving store depth stack v
  | .ok (some (.iterate iteration)) => σ.iterate store depth stack block iteration
  | .ok (some (.apply id args)) => σ.invokeClosure store depth stack id args block
  | .ok (some (.construct id args)) => σ.construct store depth stack id args block
  | .ok (some (.send method args)) =>
    ⟨store, depth, stack, .call frame receiver method args block⟩

/-- Calls a method: one that the program defines, or else a core method. -/
def call (frame : FrameId) (receiver : Value) (name : String) (args : List Value)
    (block : Option ClosureId) : Machine :=
  match store.findMethod? (store.classOf receiver) name with
  | some (owner, body) => σ.invokeMethod store depth stack receiver owner body name args block
  | none => σ.callCore store depth stack frame receiver name name args block

/-- Calls the method of the same name further up. -/
def callSuper (frame : FrameId) (args : List Value) (block : Option ClosureId) : Machine :=
  let own := store.frame frame
  match own.invocation with
  | none => raising store depth stack .superOutsideMethod
  | some invocation =>
    match store.findAbove? invocation.owner invocation.name with
    | some (owner, body) =>
      σ.invokeMethod store depth stack own.self owner body invocation.name args block
    | none =>
      σ.callCore store depth stack frame own.self invocation.name
        ("super: " ++ invocation.name) args block

/-- The method's own block. -/
def ownBlock (frame : FrameId) : Option ClosureId :=
  (store.frame frame).invocation.bind (·.block)

/-! ## Parts of code -/

/-- Evaluates the rest of a list of operands, and does with them what they are for. -/
def operands (frame : FrameId) (purpose : Purpose) (done : List Value) : List Code → Machine
  | .splat inner :: rest =>
    evaluating store depth (.operand frame purpose done true rest :: stack) frame inner
  | code :: rest =>
    evaluating store depth (.operand frame purpose done false rest :: stack) frame code
  | [] =>
    match purpose with
    | .array => givingNew depth stack (store.newArray done.toArray)
    | .call receiver method none => ⟨store, depth, stack, .call frame receiver method done none⟩
    | .call receiver method (some block) =>
      evaluating store depth (.callBlock frame receiver method done :: stack) frame block
    | .super none forwardBlock =>
      σ.callSuper store depth stack frame done
        (if forwardBlock then ownBlock store frame else none)
    | .super (some block) forwardBlock =>
      evaluating store depth (.superBlock frame done forwardBlock :: stack) frame block
    | .yield => σ.invokeBlock store depth stack (ownBlock store frame) done

/-- Evaluates the rest of the pairs of a hash. -/
def entries (frame : FrameId) (done : Table Key Value) : List (Code × Code) → Machine
  | [] => givingNew depth stack (store.newHash done)
  | (key, value) :: rest =>
    evaluating store depth (.hashKey frame done value rest :: stack) frame key

/-- Evaluates a sequence, for the value of its last item. -/
def items (frame : FrameId) : List Code → Machine
  | [] => giving store depth stack .nil
  | [code] => evaluating store depth stack frame code
  | code :: rest => evaluating store depth (.sequence frame rest :: stack) frame code

def loopTest (frame : FrameId) (condition body : Code) : Machine :=
  evaluating store depth (.loopTest frame condition body :: stack) frame condition

def loopBody (frame : FrameId) (condition body : Code) : Machine :=
  evaluating store depth (.loopBody frame condition body :: stack) frame body

/-- Opens a class and runs its body. A new class is under the superclass, or under the root; a
module is under nothing. -/
def openClass (name : String) (superclass : Option ClassId) (isModule : Bool) (id : BodyId) :
    Machine :=
  let (classId, store) := match store.constants.get? name with
    | some known => (known, store)
    | none =>
      let parent := if isModule then none else some (superclass.getD Store.objectClass)
      store.newClass { name, superclass := parent, isModule }
  match σ.unit.body? id with
  | none => raising store depth stack (.unknownBody id)
  | some body =>
    let (frame, store) := store.newFrame {
      body := id, self := .classRef classId, definee := classId,
      slots := Store.blankSlots body.slots.length }
    evaluating store depth stack frame body.code

/-- Makes a value an array. An object is asked for one. -/
def cast (frame : FrameId) (onNil : NilAsArray) (v : Value) : Machine :=
  match v with
  | .nil =>
    let items := match onNil with
      | .arrayWithNil => #[Value.nil]
      | .emptyArray => #[]
    givingNew depth stack (store.newArray items)
  | .array id => givingNew depth stack (store.newArray (store.array id))
  | _ =>
    if store.hasToAry v then
      ⟨store, depth, .castAnswer v :: stack, .call frame v "to_ary" [] none⟩
    else givingNew depth stack (store.newArray #[v])

/-- Whether the only argument of a block can be taken apart. An object is asked. -/
def shouldDestructure (frame : FrameId) : Machine :=
  match (store.frame frame).arguments with
  | [.array _] => giving store depth stack (.bool true)
  | [v] =>
    if store.hasToAry v then
      ⟨store, depth, .guardAnswer v :: stack, .call frame v "to_ary" [] none⟩
    else giving store depth stack (.bool false)
  | _ => giving store depth stack (.bool false)

/-- Creates a closure over the frame. -/
def newClosure (frame : FrameId) (id : BodyId) (lambda : Bool) : Machine :=
  match σ.unit.body? id with
  | none => raising store depth stack (.unknownBody id)
  | some body =>
    let own := store.frame frame
    givingNew depth stack <| store.newClosure {
      body := id, lambda, frame := if σ.keepsFrame body then some frame else none,
      self := own.self, invocation := own.invocation, definee := own.definee }

/-! ## Evaluation -/

/-- Starts a piece of code. -/
def eval (frame : FrameId) : Code → Machine
  | .nil => giving store depth stack .nil
  | .bool b => giving store depth stack (.bool b)
  | .integer i => giving store depth stack (.int i)
  | .float x => giving store depth stack (.float x)
  | .text t => giving store depth stack (.text t)
  | .symbol name => giving store depth stack (.symbol name)
  | .self => giving store depth stack (store.frame frame).self
  | .array items => σ.operands store depth stack frame .array [] items
  | .hash pairs => entries store depth stack frame {} pairs
  | .splat inner => evaluating store depth (.spreadArray :: stack) frame inner
  | .sequence codes => items store depth stack frame codes
  | .ifElse condition thenBranch elseBranch =>
    evaluating store depth (.branch frame thenBranch elseBranch :: stack) frame condition
  | .and left right => evaluating store depth (.andThen frame right :: stack) frame left
  | .or left right => evaluating store depth (.orElse frame right :: stack) frame left
  | .not inner => evaluating store depth (.negate :: stack) frame inner
  | .elidable body result => evaluating store depth (.sequence frame [result] :: stack) frame body
  | .readLocal source =>
    match store.frameOf frame source with
    | .ok owner => giving store depth stack (store.slot owner source.slot)
    | .error f => raising store depth stack f
  | .writeLocal target value =>
    evaluating store depth (.writeLocal frame target :: stack) frame value
  | .readInstanceVar name =>
    giving store depth stack (store.instanceVar (store.frame frame).self name)
  | .writeInstanceVar name value =>
    evaluating store depth (.writeInstanceVar frame name :: stack) frame value
  | .readClassVar name =>
    giving store depth stack ((store.classVar? (store.frame frame).definee name).getD .nil)
  | .writeClassVar name value =>
    evaluating store depth (.writeClassVar frame name :: stack) frame value
  | .readGlobal name => giving store depth stack ((store.globals.get? name).getD .nil)
  | .writeGlobal name value => evaluating store depth (.writeGlobal name :: stack) frame value
  | .constant name =>
    match store.constants.get? name with
    | some id => giving store depth stack (.classRef id)
    | none => raising store depth stack (.unknownConstant name)
  | .checkArity arity =>
    match store.arityFault? arity (store.frame frame).arguments with
    | none => giving store depth stack .nil
    | some f => raising store depth stack f
  | .argument i missing =>
    match Store.argument (store.frame frame).arguments i missing with
    | .ok v => giving store depth stack v
    | .error (.fault f) => raising store depth stack f
    | .error (.crash c) => halting store depth stack c
  | .optionalArgument i minimum keywords required default =>
    let args := (store.frame frame).arguments
    if store.suppliesOptional args minimum keywords required then
      giving store depth stack (args.getD i .nil)
    else evaluating store depth stack frame default
  | .restArgument start post keywords required =>
    let rest := store.restArgument (store.frame frame).arguments start post keywords required
    givingNew depth stack (store.newArray rest.toArray)
  | .postArgument fromEnd forward minimum keywords required =>
    let args := (store.frame frame).arguments
    match store.postArgument args fromEnd forward minimum keywords required with
    | .ok v => giving store depth stack v
    | .error c => halting store depth stack c
  | .keywordArgument name required default =>
    match store.keywordArgument? (store.frame frame).arguments name required with
    | some v => giving store depth stack v
    | none => evaluating store depth stack frame default
  | .keywordRestArgument required excluded =>
    let rest := store.keywordRest (store.frame frame).arguments required excluded
    givingNew depth stack (store.newHash rest)
  | .missingKeyword name => raising store depth stack (.missingKeyword name)
  | .blockArgument =>
    giving store depth stack (((store.frame frame).block.map Value.closure).getD .nil)
  | .shouldDestructure => shouldDestructure store depth stack frame
  | .index source position => evaluating store depth (.index position :: stack) frame source
  | .slice source start endOffset =>
    evaluating store depth (.slice start endOffset :: stack) frame source
  | .atLeast source size => evaluating store depth (.atLeast size :: stack) frame source
  | .splatCast value onNil => evaluating store depth (.splatCast frame onNil :: stack) frame value
  | .isNil inner => evaluating store depth (.isNil :: stack) frame inner
  | .call none method args block =>
    σ.operands store depth stack frame (.call (store.frame frame).self method block) [] args
  | .call (some receiver) method args block =>
    evaluating store depth (.receiver frame method args block :: stack) frame receiver
  | .super args block forwardBlock =>
    σ.operands store depth stack frame (.super block forwardBlock) [] args
  | .yield args => σ.operands store depth stack frame .yield [] args
  | .closure body lambda => σ.newClosure store depth stack frame body lambda
  | .catchBreak id body => evaluating store depth (.catchBreak id :: stack) frame body
  | .define name body =>
    giving (store.define (store.frame frame).definee name body) depth stack (.symbol name)
  | .openClass name none isModule body => σ.openClass store depth stack name none isModule body
  | .openClass name (some superclass) isModule body =>
    evaluating store depth (.superclass name isModule body :: stack) frame superclass
  | .loop condition body bodyFirst id =>
    if bodyFirst then loopBody store depth (.catchBreak id :: stack) frame condition body
    else loopTest store depth (.catchBreak id :: stack) frame condition body
  | .breakWith id value => evaluating store depth (.breakWith id :: stack) frame value
  | .nextWith value => evaluating store depth (.nextWith :: stack) frame value
  | .redo => leaving store depth stack .redo
  | .retry => leaving store depth stack .retry
  | .returnWith id value => evaluating store depth (.returnWith id :: stack) frame value

/-- Refuses a value where an array has to be. -/
def notArray (v : Value) : Machine := raising store depth stack (.notArray (store.typeName v))

/-- Refuses a value where a block has to be. -/
def notBlock (v : Value) : Machine := raising store depth stack (.notProc (store.typeName v))

/-- Gives a value to a continuation. -/
def resume (v : Value) : Cont → Machine
  | .operand frame purpose done false rest =>
    σ.operands store depth stack frame purpose (done ++ [v]) rest
  | .operand frame purpose done true rest =>
    let (spread, store) := store.spread v
    σ.operands store depth stack frame purpose (done ++ spread) rest
  | .spreadArray =>
    let (spread, store) := store.spread v
    givingNew depth stack (store.newArray spread.toArray)
  | .hashKey frame done value rest =>
    evaluating store depth (.hashValue frame done v rest :: stack) frame value
  | .hashValue frame done key rest =>
    match Key.ofValue? key with
    | some k => entries store depth stack frame (done.insert k v) rest
    | none => raising store depth stack (.notKey (store.typeName key))
  | .sequence frame rest => items store depth stack frame rest
  | .branch frame thenBranch elseBranch =>
    evaluating store depth stack frame (if v.isTrue then thenBranch else elseBranch)
  | .andThen frame right =>
    if v.isTrue then evaluating store depth stack frame right else giving store depth stack v
  | .orElse frame right =>
    if v.isTrue then giving store depth stack v else evaluating store depth stack frame right
  | .negate => giving store depth stack (.bool !v.isTrue)
  | .writeLocal frame target =>
    match store.frameOf frame target with
    | .ok owner =>
      if store.hasRoom owner target.slot then
        giving (store.setSlot owner target.slot v) depth stack v
      else halting store depth stack .noRoom
    | .error f => raising store depth stack f
  | .writeInstanceVar frame name =>
    let self := (store.frame frame).self
    if self.hasInstanceVars then giving (store.setInstanceVar self name v) depth stack v
    else raising store depth stack (.noInstanceVars (store.typeName self))
  | .writeClassVar frame name =>
    giving (store.setClassVar (store.frame frame).definee name v) depth stack v
  | .writeGlobal name => giving (store.setGlobal name v) depth stack v
  | .index position =>
    match v with
    | .array id => giving store depth stack (itemAt (store.array id) position)
    | _ => notArray store depth stack v
  | .slice start endOffset =>
    match v with
    | .array id =>
      let items := store.array id
      givingNew depth stack (store.newArray (items.extract start (items.size - endOffset)))
    | _ => notArray store depth stack v
  | .atLeast size =>
    match v with
    | .array id => giving store depth stack (.bool (size ≤ (store.array id).size))
    | _ => notArray store depth stack v
  | .isNil => giving store depth stack (.bool v.isNil)
  | .splatCast frame onNil => cast store depth stack frame onNil v
  | .castAnswer value =>
    match v with
    | .nil | .array _ => giving store depth stack v
    | _ => raising store depth stack (.badConversion (store.typeName value) (store.typeName v))
  | .guardAnswer value =>
    match v with
    | .nil => giving store depth stack (.bool false)
    | .array _ => giving store depth stack (.bool true)
    | _ => raising store depth stack (.badConversion (store.typeName value) (store.typeName v))
  | .receiver frame method args block =>
    σ.operands store depth stack frame (.call v method block) [] args
  | .callBlock frame receiver method args =>
    match v.asBlock? with
    | some block => ⟨store, depth, stack, .call frame receiver method args block⟩
    | none => notBlock store depth stack v
  | .superBlock frame args forwardBlock =>
    match v.asBlock? with
    | some block =>
      σ.callSuper store depth stack frame args
        (if block.isNone && forwardBlock then ownBlock store frame else block)
    | none => notBlock store depth stack v
  | .superclass name isModule body =>
    match v with
    | .classRef id => σ.openClass store depth stack name (some id) isModule body
    | other => raising store depth stack (.notSuperclass (store.typeName other))
  | .catchBreak _ => giving store depth stack v
  | .loopTest frame condition body =>
    if v.isTrue then loopBody store depth stack frame condition body
    else giving store depth stack .nil
  | .loopBody frame condition body => loopTest store depth stack frame condition body
  | .breakWith id => leaving store depth stack (.breakWith id v)
  | .nextWith => leaving store depth stack (.nextWith v)
  | .returnWith id => leaving store depth stack (.returnWith id v)
  | .method _ => giving store (depth - 1) stack v
  | .closure _ _ => giving store (depth - 1) stack v
  | .construct object => giving store depth stack object
  | .iterate block iteration => σ.iterate store depth stack block (iteration.absorb v)

/-- The value with which a closure ends because of an exit, if the exit is for it. -/
def closureResult? (body : Body) : Exit → Option Value
  | .nextWith v => some v
  | .returnWith id v =>
    if body.kind == .lambda && body.returnId == some id then some v else none
  | .breakWith id v =>
    if body.kind == .lambda && body.breakId == some id then some v else none
  | _ => none

/-- Takes an exit to a continuation. -/
def unwind (e : Exit) : Cont → Machine
  | .catchBreak id =>
    match e with
    | .breakWith target v =>
      if target = id then giving store depth stack v else leaving store depth stack e
    | _ => leaving store depth stack e
  | .loopBody frame condition body =>
    match e with
    | .nextWith _ => loopTest store depth stack frame condition body
    | .redo => loopBody store depth stack frame condition body
    | _ => leaving store depth stack e
  | .method body =>
    match e with
    | .returnWith id v =>
      if body.returnId = some id then giving store (depth - 1) stack v
      else leaving store (depth - 1) stack e
    | _ => leaving store (depth - 1) stack e
  | .closure frame body =>
    match e with
    | .redo => evaluating store depth (.closure frame body :: stack) frame body.code
    | _ =>
      match closureResult? body e with
      | some v => giving store (depth - 1) stack v
      | none => leaving store (depth - 1) stack e
  | _ => leaving store depth stack e

end Setting

/-- How a run ends. -/
inductive Outcome where
  | value (v : Value)
  | fault (f : Fault)
  | crash (c : Crash)

/-- What is left of a run for the next one. -/
structure Session where
  store : Store := .initial
  depth : Nat := 0

/-- One step: another machine, or the end of the run. -/
inductive Step where
  | next (m : Machine)
  | done (outcome : Outcome) (session : Session)

namespace Setting

/-- The outcome of an exit from the program. -/
def conclude (σ : Setting) : Exit → Outcome
  | .returnWith id v =>
    if (σ.unit.body? σ.unit.main).bind (·.returnId) = some id then .value v
    else .fault .returnEscaped
  | e => .fault e.fault

/-- One step of the machine. -/
def step (σ : Setting) : Machine → Step
  | ⟨store, depth, stack, .eval frame code⟩ => .next (σ.eval store depth stack frame code)
  | ⟨store, depth, stack, .call frame receiver method args block⟩ =>
    .next (σ.call store depth stack frame receiver method args block)
  | ⟨store, depth, [], .give v⟩ => .done (.value v) ⟨store, depth⟩
  | ⟨store, depth, k :: stack, .give v⟩ => .next (σ.resume store depth stack v k)
  | ⟨store, depth, [], .leave e⟩ => .done (σ.conclude e) ⟨store, depth⟩
  | ⟨store, depth, k :: stack, .leave e⟩ => .next (unwind store depth stack e k)
  | ⟨store, depth, _, .halt c⟩ => .done (.crash c) ⟨store, depth⟩

end Setting

end BlockLang
