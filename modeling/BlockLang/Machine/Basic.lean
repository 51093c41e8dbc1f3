import BlockLang.Core.Basic

/-!
# The machine

The machine evaluates one piece of code at a time. What is to be done with its value stands on a
stack of continuations, so that neither calls nor exits need any other memory: an exit takes
continuations off the stack until one of them stops it.
-/

namespace BlockLang

/-- Leaving code before it has a value. -/
inductive Exit where
  | breakWith (id : BreakId) (v : Value)
  | nextWith (v : Value)
  | redo
  | retry
  | returnWith (id : ReturnId) (v : Value)
  | raise (f : Fault)

/-- The fault of an exit that nothing stopped. -/
def Exit.fault : Exit → Fault
  | breakWith _ _ => .breakEscaped
  | nextWith _ => .nextEscaped
  | redo => .redoEscaped
  | retry => .retryEscaped
  | returnWith _ _ => .returnEscaped
  | raise f => f

/-- What a list of operands is for. -/
inductive Purpose where
  | array
  | call (receiver : Value) (method : String) (block : Option Code)
  | super (block : Option Code) (forwardBlock : Bool)
  | yield

/-- What is to be done with a value. -/
inductive Cont where
  /-- The value of an operand, which `spread` gives its items for. -/
  | operand (frame : FrameId) (purpose : Purpose) (done : List Value) (spread : Bool)
      (rest : List Code)
  /-- The items of the value as a new array. -/
  | spreadArray
  | hashKey (frame : FrameId) (done : Table Key Value) (value : Code) (rest : List (Code × Code))
  | hashValue (frame : FrameId) (done : Table Key Value) (key : Value)
      (rest : List (Code × Code))
  | sequence (frame : FrameId) (rest : List Code)
  | branch (frame : FrameId) (thenBranch elseBranch : Code)
  | andThen (frame : FrameId) (right : Code)
  | orElse (frame : FrameId) (right : Code)
  | negate
  | writeLocal (frame : FrameId) (target : Local)
  | writeInstanceVar (frame : FrameId) (name : String)
  | writeClassVar (frame : FrameId) (name : String)
  | writeGlobal (name : String)
  | index (position : Int)
  | slice (start endOffset : Nat)
  | atLeast (size : Nat)
  | isNil
  | splatCast (frame : FrameId) (onNil : NilAsArray)
  /-- What `to_ary` of the value answered when an array was wanted. -/
  | castAnswer (value : Value)
  /-- What `to_ary` of the value answered when it was to be taken apart. -/
  | guardAnswer (value : Value)
  | receiver (frame : FrameId) (method : String) (args : List Code) (block : Option Code)
  | callBlock (frame : FrameId) (receiver : Value) (method : String) (args : List Value)
  | superBlock (frame : FrameId) (args : List Value) (forwardBlock : Bool)
  | superclass (name : String) (isModule : Bool) (body : BodyId)
  | catchBreak (id : BreakId)
  | loopTest (frame : FrameId) (condition body : Code)
  | loopBody (frame : FrameId) (condition body : Code)
  | breakWith (id : BreakId)
  | nextWith
  | returnWith (id : ReturnId)
  /-- The end of a method. -/
  | method (body : Body)
  /-- The end of a block or lambda. -/
  | closure (frame : FrameId) (body : Body)
  /-- The end of the method that sets up a new object. -/
  | construct (object : Value)
  /-- The answer of a block that a core method called. -/
  | iterate (block : Option ClosureId) (iteration : Iteration)

/-- What the machine does next. -/
inductive Control where
  | eval (frame : FrameId) (code : Code)
  | call (frame : FrameId) (receiver : Value) (method : String) (args : List Value)
      (block : Option ClosureId)
  | give (v : Value)
  | leave (e : Exit)
  | halt (c : Crash)

structure Machine where
  store : Store
  /-- The number of methods and closures that are being run. -/
  depth : Nat
  stack : List Cont
  control : Control

/-- Which closures keep the frame that they were created in. -/
inductive Capture where
  /-- Those that reach through it. -/
  | onDemand
  /-- All of them. -/
  | always
deriving DecidableEq, Repr

/-- What a run depends on and does not change. -/
structure Setting where
  unit : CodeUnit
  maxDepth : Nat
  capture : Capture := .onDemand

/-- Whether frames of the body are linked to the frame that the closure was created in. -/
def Setting.keepsFrame (σ : Setting) (body : Body) : Bool :=
  body.captured || σ.capture == .always

end BlockLang
