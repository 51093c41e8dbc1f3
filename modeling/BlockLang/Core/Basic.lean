import BlockLang.Value.Equality

/-!
# Core methods: what they answer

A core method works on the store and answers with a value, or asks the machine to call something
for it. Methods that call a block for every item are iterations: `Iteration.args?` are the
arguments of the next call and `Iteration.absorb` takes its answer.
-/

namespace BlockLang

/-- A method that calls its block again and again, between two calls. -/
inductive Iteration where
  /-- Calls with the integers from `next` to `last`. -/
  | count (next last : Int) (result : Value)
  /-- Calls with each list of arguments. -/
  | each (rest : List (List Value)) (result : Value)
  /-- Calls with each item and collects the answers. -/
  | collect (rest : List Value) (answers : Array Value)
  /-- Calls with each item and keeps those with a true answer. -/
  | keep (rest : List Value) (kept : Array Value)
  /-- Calls with what the last call answered and the next item. -/
  | fold (answer : Value) (rest : List Value)
  | forever

namespace Iteration

/-- The arguments of the next call, if there is one. -/
def args? : Iteration → Option (List Value)
  | count next last _ => if next ≤ last then some [.int (Int64.ofInt next)] else none
  | each rest _ => rest.head?
  | collect rest _ => rest.head?.map ([·])
  | keep rest _ => rest.head?.map ([·])
  | fold answer rest => rest.head?.map ([answer, ·])
  | forever => some []

/-- The iteration after a call has answered. -/
def absorb (answer : Value) : Iteration → Iteration
  | count next last result => count (next + 1) last result
  | each rest result => each rest.tail result
  | collect rest answers => collect rest.tail (answers.push answer)
  | keep (item :: rest) kept => keep rest (if answer.isTrue then kept.push item else kept)
  | keep [] kept => keep [] kept
  | fold _ rest => fold answer rest.tail
  | forever => forever

/-- The answer of the method once there are no more calls. -/
def result (s : Store) : Iteration → Value × Store
  | count _ _ result => (result, s)
  | each _ result => (result, s)
  | collect _ answers => s.newArray answers
  | keep _ kept => s.newArray kept
  | fold answer _ => (answer, s)
  | forever => (.nil, s)

end Iteration

/-- What a core method answers. -/
inductive Reply where
  | value (v : Value)
  /-- Calls the block of the call. -/
  | iterate (iteration : Iteration)
  /-- Calls a closure and answers what it answers. -/
  | apply (id : ClosureId) (args : List Value)
  /-- A new object of the class. -/
  | construct (id : ClassId) (args : List Value)
  /-- Calls another method of the same receiver. -/
  | send (method : String) (args : List Value)

/-- Work on the store that ends with an answer, or with trouble. -/
abbrev Core := ExceptT Trouble (StateM Store)

namespace Core

variable {α : Type}

def raise (f : Fault) : Core α := throw (.fault f)

def crash (c : Crash) : Core α := throw (.crash c)

def ofFault : Except Fault α → Core α
  | .ok a => pure a
  | .error f => raise f

/-- Text and comparison of a value that contains itself have no end. -/
def ofEndless : Option α → Core α
  | some a => pure a
  | none => crash .endlessValue

def typeName (v : Value) : Core String := return (← get).typeName v

def inspect (v : Value) : Core String := do ofEndless ((← get).inspect? v)

def display (v : Value) : Core String := do ofEndless ((← get).display? v)

def equal (a b : Value) : Core Bool := do ofEndless ((← get).equal? a b)

def newArray (items : Array Value) : Core Value := modifyGet (·.newArray items)

def newHash (entries : Table Key Value) : Core Value := modifyGet (·.newHash entries)

def answer (v : Value) : Core (Option Reply) := return some (.value v)

def answerBool (b : Bool) : Core (Option Reply) := answer (.bool b)

def answerInt (n : Nat) : Core (Option Reply) := answer (.int (Int64.ofNat n))

def answerText (t : String) : Core (Option Reply) := answer (.text t)

def answerArray (items : Array Value) : Core (Option Reply) := do answer (← newArray items)

/-- Refuses any other number of arguments. -/
def expectArgs (name : String) (args : List Value) (count : Nat) : Core Unit :=
  unless args.length == count do
    raise (.wrongCountIn name args.length count)

/-- The only argument. -/
def onlyArg (name : String) : List Value → Core Value
  | [v] => return v
  | args => raise (.wrongCountIn name args.length 1)

/-- The integer argument at a position. -/
def intArg (args : List Value) (position : Nat) : Core Int64 := do
  match args[position]? with
  | some (.int i) => return i
  | some other => raise (.noConversionOf (← typeName other) "Integer")
  | none => raise .noIndex

def keyOf (v : Value) : Core Key := do
  match Key.ofValue? v with
  | some key => return key
  | none => raise (.notKey (← typeName v))

end Core

end BlockLang
