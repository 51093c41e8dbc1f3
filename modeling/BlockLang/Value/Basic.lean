/-!
# Values

Arrays, hashes, closures, objects and classes are references into the store; everything else is
the value itself.
-/

namespace BlockLang

abbrev ArrayId := Nat

abbrev HashId := Nat

abbrev ClosureId := Nat

abbrev ObjectId := Nat

abbrev ClassId := Nat

abbrev FrameId := Nat

/-- A value of the running program. -/
inductive Value where
  | nil
  | bool (value : Bool)
  | int (value : Int64)
  | float (value : Float)
  | text (value : String)
  | symbol (name : String)
  | array (id : ArrayId)
  | hash (id : HashId)
  | closure (id : ClosureId)
  | object (id : ObjectId)
  | classRef (id : ClassId)
deriving Inhabited

namespace Value

/-- Only nil and false are false. -/
def isTrue : Value → Bool
  | nil => false
  | bool b => b
  | _ => true

def isNil : Value → Bool
  | nil => true
  | _ => false

/-- Objects and classes have instance variables. -/
def hasInstanceVars : Value → Bool
  | object _ | classRef _ => true
  | _ => false

/-- The block that a value stands for when it is passed as one: nil is no block, and only closures
are blocks. -/
def asBlock? : Value → Option (Option ClosureId)
  | nil => some none
  | closure id => some (some id)
  | _ => none

end Value

/-- The values that can be keys of a hash. -/
inductive Key where
  | nil
  | bool (value : Bool)
  | int (value : Int64)
  | text (value : String)
  | symbol (name : String)
deriving DecidableEq, Repr, Inhabited

namespace Key

def ofValue? : Value → Option Key
  | .nil => some nil
  | .bool b => some (bool b)
  | .int i => some (int i)
  | .text s => some (text s)
  | .symbol name => some (symbol name)
  | _ => none

def toValue : Key → Value
  | nil => .nil
  | bool b => .bool b
  | int i => .int i
  | text s => .text s
  | symbol name => .symbol name

end Key

/-- Writes `v` at `i`, with nil at the places before it that were not there. -/
def setGrowing (items : Array Value) (i : Nat) (v : Value) : Array Value :=
  if i < items.size then items.set! i v
  else (items ++ Array.replicate (i - items.size) Value.nil).push v

end BlockLang
