import BlockLang.Code.Unit
import BlockLang.Fault
import BlockLang.Table
import BlockLang.Value.Basic

/-!
# The store

Everything that values refer to, and the frames that hold variables. The store only grows: a
reference that was given out stays good. A class's superclass is older than the class, and a
frame's parent older than the frame.
-/

namespace BlockLang

/-- The call of a method; the closures written in the method share it. -/
structure Invocation where
  name : String
  /-- The class that the method was found in; `super` looks above it. -/
  owner : ClassId
  /-- The block that was passed, which `yield` calls. -/
  block : Option ClosureId
deriving Inhabited

/-- A block or lambda with what it keeps of the frame it was written in. -/
structure Closure where
  body : BodyId
  lambda : Bool
  frame : Option FrameId
  self : Value
  invocation : Option Invocation
  definee : ClassId
deriving Inhabited

/-- An object and its instance variables. -/
structure Instance where
  classId : ClassId
  fields : Table String Value := {}
deriving Inhabited

/-- A class or module. -/
structure ClassInfo where
  name : String
  superclass : Option ClassId := none
  isModule : Bool := false
  methods : Table String BodyId := {}
  classVars : Table String Value := {}
  fields : Table String Value := {}
deriving Inhabited

/-- The variables of one run of a body. -/
structure Frame where
  body : BodyId
  self : Value
  arguments : List Value := []
  block : Option ClosureId := none
  invocation : Option Invocation := none
  /-- The class that `def` adds methods to. -/
  definee : ClassId
  parent : Option FrameId := none
  slots : Array Value := #[]
deriving Inhabited

structure Store where
  arrays : Array (Array Value) := #[]
  hashes : Array (Table Key Value) := #[]
  closures : Array Closure := #[]
  objects : Array Instance := #[]
  classes : Array ClassInfo := #[]
  frames : Array Frame := #[]
  constants : Table String ClassId := {}
  globals : Table String Value := {}
  output : String := ""
deriving Inhabited

namespace Store

/-! ## Reading -/

def array (s : Store) (id : ArrayId) : Array Value := s.arrays.getD id #[]

def hash (s : Store) (id : HashId) : Table Key Value := s.hashes.getD id {}

def closure (s : Store) (id : ClosureId) : Closure := s.closures.getD id default

def object (s : Store) (id : ObjectId) : Instance := s.objects.getD id default

def classInfo (s : Store) (id : ClassId) : ClassInfo := s.classes.getD id default

def frame (s : Store) (id : FrameId) : Frame := s.frames.getD id default

/-! ## New things -/

def newArray (s : Store) (items : Array Value) : Value × Store :=
  (.array s.arrays.size, { s with arrays := s.arrays.push items })

def newHash (s : Store) (entries : Table Key Value) : Value × Store :=
  (.hash s.hashes.size, { s with hashes := s.hashes.push entries })

def newClosure (s : Store) (c : Closure) : Value × Store :=
  (.closure s.closures.size, { s with closures := s.closures.push c })

def newObject (s : Store) (classId : ClassId) : Value × Store :=
  (.object s.objects.size, { s with objects := s.objects.push { classId } })

def newFrame (s : Store) (f : Frame) : FrameId × Store :=
  (s.frames.size, { s with frames := s.frames.push f })

/-- A class that its name refers to from now on. -/
def newClass (s : Store) (c : ClassInfo) : ClassId × Store :=
  let id := s.classes.size
  (id, { s with classes := s.classes.push c, constants := s.constants.insert c.name id })

/-- An array for each pair. -/
def newPairs (s : Store) : List (Key × Value) → List Value × Store
  | [] => ([], s)
  | (key, value) :: rest =>
    let (pair, s) := s.newArray #[key.toValue, value]
    let (pairs, s) := s.newPairs rest
    (pair :: pairs, s)

/-! ## Changes -/

def modifyArray (s : Store) (id : ArrayId) (f : Array Value → Array Value) : Store :=
  { s with arrays := s.arrays.modify id f }

def modifyHash (s : Store) (id : HashId) (f : Table Key Value → Table Key Value) : Store :=
  { s with hashes := s.hashes.modify id f }

def modifyClass (s : Store) (id : ClassId) (f : ClassInfo → ClassInfo) : Store :=
  { s with classes := s.classes.modify id f }

def define (s : Store) (id : ClassId) (name : String) (body : BodyId) : Store :=
  s.modifyClass id fun c => { c with methods := c.methods.insert name body }

def setClassVar (s : Store) (id : ClassId) (name : String) (v : Value) : Store :=
  s.modifyClass id fun c => { c with classVars := c.classVars.insert name v }

def setGlobal (s : Store) (name : String) (v : Value) : Store :=
  { s with globals := s.globals.insert name v }

def write (s : Store) (text : String) : Store :=
  { s with output := s.output ++ text }

/-! ## Classes -/

/-- At most `n` classes upward from `id`. -/
def upward (s : Store) : Nat → ClassId → List ClassId
  | 0, _ => []
  | n + 1, id =>
    id ::
      match (s.classInfo id).superclass with
      | none => []
      | some parent => s.upward n parent

/-- The class and those above it, nearest first. Superclasses are older, so there are no more than
`id + 1`. -/
def ancestors (s : Store) (id : ClassId) : List ClassId := s.upward (id + 1) id

/-- The nearest class that defines the method, and the method's body. -/
def findMethod? (s : Store) (id : ClassId) (name : String) : Option (ClassId × BodyId) :=
  (s.ancestors id).findSome? fun owner =>
    ((s.classInfo owner).methods.get? name).map fun body => (owner, body)

/-- The method of a class strictly above. -/
def findAbove? (s : Store) (id : ClassId) (name : String) : Option (ClassId × BodyId) :=
  (s.classInfo id).superclass.bind fun parent => s.findMethod? parent name

def classVar? (s : Store) (id : ClassId) (name : String) : Option Value :=
  (s.ancestors id).findSome? fun owner => (s.classInfo owner).classVars.get? name

/-- The class at the root of all others. -/
def objectClass : ClassId := 0

/-- The class whose methods a value answers to. -/
def classOf (s : Store) : Value → ClassId
  | .object id => (s.object id).classId
  | _ => objectClass

/-- The name of a value's type. -/
def typeName (s : Store) : Value → String
  | .nil => "NilClass"
  | .bool true => "TrueClass"
  | .bool false => "FalseClass"
  | .int _ => "Integer"
  | .float _ => "Float"
  | .text _ => "String"
  | .symbol _ => "Symbol"
  | .array _ => "Array"
  | .hash _ => "Hash"
  | .closure _ => "Proc"
  | .object id => (s.classInfo (s.object id).classId).name
  | .classRef _ => "Class"

/-! ## Variables -/

def instanceVar (s : Store) (self : Value) (name : String) : Value :=
  match self with
  | .object id => ((s.object id).fields.get? name).getD .nil
  | .classRef id => ((s.classInfo id).fields.get? name).getD .nil
  | _ => .nil

/-- Writes an instance variable of an object or class. -/
def setInstanceVar (s : Store) (self : Value) (name : String) (v : Value) : Store :=
  match self with
  | .object id =>
    let set (o : Instance) : Instance := { o with fields := o.fields.insert name v }
    { s with objects := s.objects.modify id set }
  | .classRef id => s.modifyClass id fun c => { c with fields := c.fields.insert name v }
  | _ => s

/-- The frame `level` parents outward. -/
def frameAt? (s : Store) : Nat → FrameId → Option FrameId
  | 0, id => some id
  | level + 1, id =>
    match (s.frame id).parent with
    | none => none
    | some parent => s.frameAt? level parent

/-- The frame that a variable is in. -/
def frameOf (s : Store) (id : FrameId) (l : Local) : Except Fault FrameId :=
  match s.frameAt? l.level id with
  | none => .error (.noFrame l.name)
  | some owner => .ok owner

/-- A variable of a frame; one that was never written is nil. -/
def slot (s : Store) (id : FrameId) (slot : SlotId) : Value := (s.frame id).slots.getD slot .nil

/-- How many variables a frame can grow to. -/
def maxSlots : Nat := 268435456

/-- Whether a variable of a frame can be written: it is there, or the frame can grow. -/
def hasRoom (s : Store) (id : FrameId) (slot : SlotId) : Bool :=
  slot < maxSlots || slot < (s.frame id).slots.size

/-- Writes a variable. A frame grows for one behind its last. -/
def setSlot (s : Store) (id : FrameId) (slot : SlotId) (v : Value) : Store :=
  let set (f : Frame) : Frame := { f with slots := setGrowing f.slots slot v }
  { s with frames := s.frames.modify id set }

/-- Slots that were never written. -/
def blankSlots (n : Nat) : Array Value := Array.replicate n .nil

def blankSlots? (n : Nat) : Option (Array Value) :=
  if n ≤ maxSlots then some (blankSlots n) else none

/-- The store that every program starts with: the root class and one object of it. -/
def initial : Store :=
  let (_, s) := ({} : Store).newClass { name := "Object" }
  (s.newObject objectClass).2

/-- The object that a program is run as. -/
def mainObject : Value := .object 0

end Store

end BlockLang
