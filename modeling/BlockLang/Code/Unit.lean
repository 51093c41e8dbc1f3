import BlockLang.Code.Basic

/-!
# Units of code

All bodies of a program. A body is known by its place in the unit, and places are given out before
the bodies are finished, so bodies may arrive in any order.
-/

namespace BlockLang

/-- A method, block, lambda, class, module or program after lowering. -/
structure Body where
  id : BodyId
  name : String
  kind : BodyKind
  arity : Arity := {}
  /-- The names of the variables, by slot. -/
  slots : List String := []
  /-- A frame of this body keeps the frame that it was created in. -/
  captured : Bool := false
  returnId : Option ReturnId := none
  breakId : Option BreakId := none
  code : Code := .nil
  span : Span := {}
deriving Inhabited

def Body.slotOf? (b : Body) (name : String) : Option SlotId := b.slots.idxOf? name

/-- What tools are told about a body. -/
def Body.summary (b : Body) : Json :=
  let optional (n : Option Nat) : Json := match n with
    | none => .null
    | some n => .nat n
  .record [("id", .nat b.id), ("name", .text b.name), ("kind", .text b.kind.text),
    ("arity", b.arity.toJson), ("slots", .array (b.slots.map .text)),
    ("needs_captured_frame", .bool b.captured),
    ("return_id", optional (b.returnId.map (·.index))),
    ("break_id", optional (b.breakId.map (·.index)))]

/-- The bodies of a program by place, and which of them is the program itself. -/
structure CodeUnit where
  bodies : Array Body := #[]
  main : BodyId := 0
deriving Inhabited

namespace CodeUnit

def body? (u : CodeUnit) (id : BodyId) : Option Body := u.bodies[id]?

/-- What stands at a place that has no body yet. -/
def placeholder (id : BodyId) : Body := { id, name := "", kind := .block }

/-- Places up to and including `id`. -/
def reserve (u : CodeUnit) (id : BodyId) : CodeUnit :=
  let missing := List.range' u.bodies.size (id + 1 - u.bodies.size)
  { u with bodies := u.bodies ++ (missing.map placeholder).toArray }

/-- The unit with the body at its place. -/
def add (u : CodeUnit) (b : Body) : CodeUnit :=
  let u := u.reserve b.id
  { u with bodies := u.bodies.set! b.id b }

/-- How many places a unit can have. -/
def maxBodies : Nat := Nat.pow 2 24

/-- The unit of some bodies, each at its place, if there are as many places. -/
def ofBodies? (bodies : List Body) : Option CodeUnit :=
  if bodies.all fun b => b.id < maxBodies then some (bodies.foldl add {}) else none

def find? (u : CodeUnit) (name : String) : Option Body := u.bodies.find? fun b => b.name == name

def summaries (u : CodeUnit) : Json := .array (u.bodies.toList.map Body.summary)

end CodeUnit

end BlockLang
