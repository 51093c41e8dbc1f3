import BlockLang.Core.Mapping
import BlockLang.Core.Sequence
import BlockLang.Core.Text

/-!
# Core methods of every value

A value is asked for a method of its own type first; the methods below are those that every value
has. `none` means that there is no such method.
-/

namespace BlockLang

namespace Core

def closureMethod (id : ClosureId) (name : String) (args : List Value) :
    Core (Option Reply) := do
  match name with
  | "call" | "()" | "yield" | "[]" => return some (.apply id args)
  | "lambda?" => answerBool ((← get).closure id).lambda
  | "to_proc" => answer (.closure id)
  | _ => return none

def classMethod (id : ClassId) (name : String) (args : List Value) : Core (Option Reply) := do
  let info := (← get).classInfo id
  match name with
  | "new" => return some (.construct id args)
  | "name" | "to_s" => answerText info.name
  | "superclass" => answer ((info.superclass.map Value.classRef).getD .nil)
  | "method_defined?" => do
    let method ← display (← onlyArg name args)
    answerBool ((← get).findMethod? id method).isSome
  | _ => return none

/-- Methods of the value's own type. -/
def typedMethod (receiver : Value) (name : String) (args : List Value) : Core (Option Reply) :=
  match receiver with
  | .int _ | .float _ => numberMethod receiver name args
  | .text t => textMethod t name args
  | .symbol symbol => symbolMethod symbol name
  | .array id => arrayMethod id name args
  | .hash id => hashMethod id name args
  | .nil => nilMethod name
  | .closure id => closureMethod id name args
  | .classRef id => classMethod id name args
  | .bool _ | .object _ => return none

/-- Writes a text for each of the values. -/
def writeEach (show? : Store → Value → Option String) (after : String) (args : List Value) :
    Core Unit :=
  args.forM fun v => do
    let text ← ofEndless (show? (← get) v)
    modify (·.write (text ++ after))

/-- Methods that every value has. `caller` is the frame that the call stands in. -/
def commonMethod (caller : Frame) (receiver : Value) (name : String) (args : List Value)
    (block : Option ClosureId) : Core (Option Reply) := do
  match name with
  | "puts" => do
    if args.isEmpty then modify (·.write "\n")
    writeEach Store.lines? "" args
    answer .nil
  | "print" => do
    writeEach Store.display? "" args
    answer .nil
  | "p" => do
    writeEach Store.inspect? "\n" args
    match args with
    | [] => answer .nil
    | [v] => answer v
    | _ => answerArray args.toArray
  | "block_given?" => answerBool (caller.invocation.bind (·.block)).isSome
  | "loop" => return some (.iterate .forever)
  | "proc" =>
    match block with
    | some id => answer (.closure id)
    | none => raise .noBlockForProc
  | "tap" => return some (.iterate (.each [[receiver]] receiver))
  | "send" | "__send__" =>
    match args with
    | .symbol method :: rest => return some (.send method rest)
    | .text method :: rest => return some (.send method rest)
    | _ => raise .noMethodName
  | "respond_to?" => do
    let method ← display (← onlyArg name args)
    match receiver with
    | .object id =>
      let s ← get
      answerBool (s.findMethod? (s.object id).classId method).isSome
    | _ => answerBool false
  | "class" =>
    match receiver with
    | .object id => answer (.classRef ((← get).object id).classId)
    | _ => return none
  | "nil?" => answerBool receiver.isNil
  | "==" | "equal?" => do answerBool (← equal receiver (← onlyArg name args))
  | "!=" => do answerBool (!(← equal receiver (← onlyArg name args)))
  | "!" => answerBool (!receiver.isTrue)
  | "to_s" => do answerText (← display receiver)
  | "inspect" => do answerText (← inspect receiver)
  | _ => return none

/-- What the core method `name` of a value answers. -/
def method (caller : Frame) (receiver : Value) (name : String) (args : List Value)
    (block : Option ClosureId) : Core (Option Reply) := do
  match ← typedMethod receiver name args with
  | some reply => return some reply
  | none => commonMethod caller receiver name args block

end Core

end BlockLang
